import MiniC.Proofs.Code.Calls
import MiniC.Proofs.Heap.Tiling
import MiniC.Proofs.Syntax.Extent

/-!
# The data segment

Global variables and texts are stored in the order in which a source mentions them. Each fills whole
words, so the next one is aligned and its range does not depend on what was stored before
(`DataObject.bytes`). The code of a text is the constant of its address, so a function has the same
code when its texts are replaced by those constants (`Expr.generate_pin`).
-/

namespace MiniC

namespace Syntax

/-! ## Texts in a tree -/

mutual

/-- The texts in an expression, in order. -/
def Expr.texts : Expr → List (List UInt8)
  | .number _ | .negative _ | .sizeOf _ | .name _ => []
  | .text bytes => [bytes]
  | .call _ args => Expr.textsIn args
  | .cast _ e | .paren e | .deref e | .addressOf e | .withConstant _ _ e | .plus e | .negate e
  | .preStep _ e | .postStep _ _ e => e.texts
  | .assign l r | .shortCircuit _ l r | .binary _ l r | .index l r => l.texts ++ r.texts
  | .cond test yes no => test.texts ++ yes.texts ++ no.texts

def Expr.textsIn : List Expr → List (List UInt8)
  | [] => []
  | e :: rest => e.texts ++ Expr.textsIn rest

end

mutual

def Stmt.texts : Stmt → List (List UInt8)
  | .expr e | .ret (some e) => e.texts
  | .ifThen test yes => test.texts ++ yes.texts
  | .ifElse test yes no => test.texts ++ yes.texts ++ no.texts
  | .whileLoop test body => test.texts ++ body.texts
  | .block body => Stmt.textsIn body
  | .ret none | .empty => []

def Stmt.textsIn : List Stmt → List (List UInt8)
  | [] => []
  | s :: rest => s.texts ++ Stmt.textsIn rest

end

mutual

/-- An expression with its texts replaced by constants, the first of them by `address k`. -/
def Expr.pin (address : Nat → Word) (k : Nat) : Expr → Expr
  | .number n => .number n
  | .negative n => .negative n
  | .sizeOf type => .sizeOf type
  | .name id => .name id
  | .text _ => .cast CType.char.pointerTo (.number (address k))
  | .call id args => .call id (Expr.pinIn address k args)
  | .cast type e => .cast type (e.pin address k)
  | .paren e => .paren (e.pin address k)
  | .deref e => .deref (e.pin address k)
  | .addressOf e => .addressOf (e.pin address k)
  | .withConstant op constant e => .withConstant op constant (e.pin address k)
  | .plus e => .plus (e.pin address k)
  | .negate e => .negate (e.pin address k)
  | .preStep op e => .preStep op (e.pin address k)
  | .postStep apply undo e => .postStep apply undo (e.pin address k)
  | .assign l r => .assign (l.pin address k) (r.pin address (k + l.texts.length))
  | .shortCircuit condition l r =>
    .shortCircuit condition (l.pin address k) (r.pin address (k + l.texts.length))
  | .binary op l r => .binary op (l.pin address k) (r.pin address (k + l.texts.length))
  | .index l r => .index (l.pin address k) (r.pin address (k + l.texts.length))
  | .cond test yes no =>
    .cond (test.pin address k) (yes.pin address (k + test.texts.length))
      (no.pin address (k + test.texts.length + yes.texts.length))

def Expr.pinIn (address : Nat → Word) (k : Nat) : List Expr → List Expr
  | [] => []
  | e :: rest => e.pin address k :: Expr.pinIn address (k + e.texts.length) rest

end

mutual

def Stmt.pin (address : Nat → Word) (k : Nat) : Stmt → Stmt
  | .expr e => .expr (e.pin address k)
  | .ifThen test yes => .ifThen (test.pin address k) (yes.pin address (k + test.texts.length))
  | .ifElse test yes no =>
    .ifElse (test.pin address k) (yes.pin address (k + test.texts.length))
      (no.pin address (k + test.texts.length + yes.texts.length))
  | .whileLoop test body =>
    .whileLoop (test.pin address k) (body.pin address (k + test.texts.length))
  | .ret value => .ret (value.map (Expr.pin address k))
  | .block body => .block (Stmt.pinIn address k body)
  | .empty => .empty

def Stmt.pinIn (address : Nat → Word) (k : Nat) : List Stmt → List Stmt
  | [] => []
  | s :: rest => s.pin address k :: Stmt.pinIn address (k + s.texts.length) rest

end

/-! ## What is stored -/

/-- What the data segment consists of. -/
inductive DataObject where
  | globalVar (id : SymbolId)
  | text (bytes : List UInt8)

namespace DataObject

/-- The bytes that an object fills: zeros for a variable, and at least one zero behind a text. -/
def bytes : DataObject → List UInt8
  | globalVar _ => List.replicate wordSize 0
  | text bytes => bytes ++ padding bytes.length

theorem dvd_length_bytes (x : DataObject) : wordSize ∣ x.bytes.length := by
  cases x with
  | globalVar id => rw [bytes, List.length_replicate]
  | text bytes =>
    rw [DataObject.bytes, List.length_append, padding, List.length_replicate, wordSize]
    omega

end DataObject

/-- Where an object begins, by its number. -/
def offsetOf (objects : List DataObject) (k : Nat) : Nat :=
  ((objects.take k).flatMap DataObject.bytes).length

/-- The objects that an item stores. -/
def Item.objects : Item → List DataObject
  | .constant _ _ => []
  | .globalVar _ id => [.globalVar id]
  | .function _ _ _ _ body => (Stmt.textsIn body).map .text

theorem dvd_length_flatMap (objects : List DataObject) :
    wordSize ∣ (objects.flatMap DataObject.bytes).length := by
  induction objects with
  | nil => exact Nat.dvd_zero _
  | cons x rest ih =>
    rw [List.flatMap_cons, List.length_append]
    exact Nat.dvd_add x.dvd_length_bytes ih

theorem offsetOf_append (objects more : List DataObject) (k : Nat) :
    offsetOf (objects ++ more) (objects.length + k) =
      (objects.flatMap DataObject.bytes).length + offsetOf more k := by
  rw [offsetOf, offsetOf, List.take_length_add_append, List.flatMap_append, List.length_append]

/-- The bytes of texts one behind the other. -/
def textBytes (texts : List (List UInt8)) : List UInt8 :=
  (texts.map DataObject.text).flatMap DataObject.bytes

theorem textBytes_append (texts texts' : List (List UInt8)) :
    textBytes (texts ++ texts') = textBytes texts ++ textBytes texts' := by
  rw [textBytes, List.map_append, List.flatMap_append, textBytes, textBytes]

theorem dvd_length_textBytes (texts : List (List UInt8)) : wordSize ∣ (textBytes texts).length :=
  dvd_length_flatMap _

/-- Texts whose addresses, from number `k` on, are those at which they are stored if the first of
them is stored at `size`. -/
def Addressed (address : Nat → Word) : (k size : Nat) → List (List UInt8) → Prop
  | _, _, [] => True
  | k, size, bytes :: rest =>
    address k = Word.ofNat (dataBase + size) ∧
      Addressed address (k + 1) (size + (DataObject.text bytes).bytes.length) rest

theorem Addressed.append_iff {address : Nat → Word} {k size : Nat}
    {texts texts' : List (List UInt8)} :
    Addressed address k size (texts ++ texts') ↔ Addressed address k size texts ∧
      Addressed address (k + texts.length) (size + (textBytes texts).length) texts' := by
  induction texts generalizing k size with
  | nil => simp [Addressed, textBytes]
  | cons bytes rest ih =>
    have hbytes : (textBytes (bytes :: rest)).length =
        (DataObject.text bytes).bytes.length + (textBytes rest).length := by
      rw [textBytes, List.map_cons, List.flatMap_cons, List.length_append, textBytes]
    rw [List.cons_append, Addressed, ih, Addressed, hbytes, List.length_cons, and_assoc,
      Nat.add_assoc, Nat.add_comm 1, Nat.add_assoc]

/-- Texts behind others that begin at a word boundary begin at one too. -/
theorem Addressed.split {address : Nat → Word} {k size : Nat} {texts texts' : List (List UInt8)}
    (hsize : wordSize ∣ size) (h : Addressed address k size (texts ++ texts')) :
    Addressed address k size texts ∧ wordSize ∣ size + (textBytes texts).length ∧
      Addressed address (k + texts.length) (size + (textBytes texts).length) texts' := by
  obtain ⟨hfirst, hrest⟩ := append_iff.mp h
  exact ⟨hfirst, Nat.dvd_add hsize (dvd_length_textBytes texts), hrest⟩

/-- Padding behind a text that begins at a word boundary. -/
theorem padding_add {size : Nat} (h : wordSize ∣ size) (n : Nat) :
    padding (size + n) = padding n := by
  obtain ⟨q, rfl⟩ := h
  rw [padding, padding, Nat.mul_add_mod]

/-! ## Chunks without their data -/

namespace Chunk

variable {c c' : Chunk} {w : Width}

/-- A chunk that stores nothing. -/
def dry (c : Chunk) : Chunk := { c with data := [] }

@[simp] theorem dry_append (c c' : Chunk) : (c ++ c').dry = c.dry ++ c'.dry := rfl
@[simp] theorem dry_ofCode (code : List Instr) : (ofCode code).dry = ofCode code := rfl
@[simp] theorem dry_startAt (pos : Nat) : (startAt pos).dry = startAt pos := rfl
@[simp] theorem dry_joinAt (pos : Nat) : (joinAt pos).dry = joinAt pos := rfl
@[simp] theorem code_dry (c : Chunk) : c.dry.code = c.code := rfl
@[simp] theorem stop_dry (c : Chunk) (pos : Nat) : c.dry.stop pos = c.stop pos := rfl

theorem rewriteLoad?_dry (h : c.rewriteLoad? = some (w, c')) :
    c.dry.rewriteLoad? = some (w, c'.dry) ∧ c'.data = c.data := by
  obtain ⟨front, hcode, rfl⟩ := rewriteLoad?_eq_some h
  refine ⟨?_, rfl⟩
  rw [rewriteLoad?_of_getLast? (w := w) (by rw [code_dry, hcode, List.getLast?_concat]), code_dry,
    hcode, List.dropLast_concat]
  rfl

theorem removeLoad?_dry (h : c.removeLoad? = some c') :
    c.dry.removeLoad? = some c'.dry ∧ c'.data = c.data := by
  obtain ⟨front, w, hcode, rfl⟩ := removeLoad?_eq_some h
  refine ⟨?_, rfl⟩
  rw [removeLoad?_of_getLast? (w := w) (by rw [code_dry, hcode, List.getLast?_concat]), code_dry,
    hcode, List.dropLast_concat]
  rfl

end Chunk

/-! ## Texts in code -/

section

variable {cx : Context} {address : Nat → Word}

theorem Expr.length_pinIn (k : Nat) (args : List Expr) :
    (Expr.pinIn address k args).length = args.length := by
  induction args generalizing k with
  | nil => rfl
  | cons e rest ih => rw [pinIn, List.length_cons, ih, List.length_cons]

theorem Expr.generateArgs_pin {args : List Expr} {pos size k : Nat} {c : Chunk}
    (he : ∀ e ∈ args, ∀ {pos size t c}, e.generate cx pos size = some (t, c) →
      ∀ {k}, wordSize ∣ size → Addressed address k size e.texts →
        c.data = textBytes e.texts ∧
          ∀ size', (e.pin address k).generate cx pos size' = some (t, c.dry))
    (h : generateArgs cx pos size args = some c) (hsize : wordSize ∣ size)
    (haddress : Addressed address k size (textsIn args)) :
    c.data = textBytes (textsIn args) ∧
      ∀ size', generateArgs cx pos size' (pinIn address k args) = some c.dry := by
  refine generateArgs_induction (motive := fun args pos size c => ∀ k, wordSize ∣ size →
    Addressed address k size (textsIn args) → c.data = textBytes (textsIn args) ∧
      ∀ size', generateArgs cx pos size' (pinIn address k args) = some c.dry)
    (fun _ _ _ _ _ => ⟨rfl, fun _ => rfl⟩) ?_ h k hsize haddress
  intro e hmem rest pos size t c c' h hrest k hsize haddress
  obtain ⟨hfirst, hsize₁, haddress₁⟩ := Addressed.split hsize haddress
  obtain ⟨hdata, hpin⟩ := he e hmem h hsize hfirst
  rw [hdata] at hrest
  obtain ⟨hdata₁, hpin₁⟩ := hrest _ hsize₁ haddress₁
  refine ⟨by simp [hdata, hdata₁, textsIn, textBytes_append], fun size' => ?_⟩
  simp [pinIn, generateArgs, hpin, hpin₁]

/-- What an expression stores, and that its code only depends on the addresses of its texts. -/
theorem Expr.generate_pin {e : Expr} {pos size k : Nat} {t : CType} {c : Chunk}
    (h : e.generate cx pos size = some (t, c)) (hsize : wordSize ∣ size)
    (haddress : Addressed address k size e.texts) :
    c.data = textBytes e.texts ∧
      ∀ size', (e.pin address k).generate cx pos size' = some (t, c.dry) := by
  replace h := generated h
  induction h generalizing k with
  | number _ | negative _ | sizeOf _ => exact ⟨rfl, fun _ => rfl⟩
  | text _ =>
    refine ⟨?_, fun size' => ?_⟩
    · rw [padding_add hsize]
      exact (List.append_nil _).symm
    · rw [pin, haddress.1]
      rfl
  | name hcode =>
    refine ⟨rfl, fun size' => ?_⟩
    rw [pin, generate, hcode]
    rfl
  | call args hargs _ hi ih =>
    obtain ⟨hdata, hpin⟩ := generateArgs_pin ih hargs hsize haddress
    refine ⟨by simp [hdata, texts], fun size' => ?_⟩
    have hlength : (pinIn address k args).length = args.length := length_pinIn k args
    simp [pin, generate, hpin, hi, hlength]
  | paren _ ih => exact ih hsize haddress
  | cast _ _ ih | plus _ ih | withConstant _ _ _ ih | negate _ ih =>
    obtain ⟨hdata, hpin⟩ := ih hsize haddress
    exact ⟨by simp [hdata, texts], fun size' => by simp [pin, generate, hpin]⟩
  | deref _ ht ih =>
    obtain ⟨hdata, hpin⟩ := ih hsize haddress
    exact ⟨by simp [hdata, texts], fun size' => by simp [pin, generate, hpin, ht]⟩
  | addressOf _ hrem ih =>
    obtain ⟨hdata, hpin⟩ := ih hsize haddress
    obtain ⟨hdry, hsame⟩ := Chunk.removeLoad?_dry hrem
    exact ⟨hsame.trans hdata, fun size' => by simp [pin, generate, hpin, hdry]⟩
  | preStep _ _ hrew ih | postStep _ _ _ hrew ih =>
    obtain ⟨hdata, hpin⟩ := ih hsize haddress
    obtain ⟨hdry, hsame⟩ := Chunk.rewriteLoad?_dry hrew
    exact ⟨by simp [hsame, hdata, texts], fun size' => by simp [pin, generate, hpin, hdry]⟩
  | assign _ hrew _ ih ih₁ =>
    obtain ⟨hleft, hsize₁, hright⟩ := Addressed.split hsize haddress
    obtain ⟨hdata, hpin⟩ := ih hsize hleft
    obtain ⟨hdry, hsame⟩ := Chunk.rewriteLoad?_dry hrew
    rw [hsame, hdata] at ih₁
    obtain ⟨hdata₁, hpin₁⟩ := ih₁ hsize₁ hright
    refine ⟨by simp [hsame, hdata, hdata₁, texts, textBytes_append], fun size' => ?_⟩
    simp [pin, generate, hpin, hdry, hpin₁]
  | cond _ _ hsecond _ ih ih₁ ih₂ =>
    subst hsecond
    rw [texts, List.append_assoc] at haddress
    obtain ⟨htest, hsize₁, hrest⟩ := haddress.split hsize
    obtain ⟨hyes, hsize₂, hno⟩ := hrest.split hsize₁
    obtain ⟨hdata, hpin⟩ := ih hsize htest
    rw [hdata] at ih₁ ih₂
    obtain ⟨hdata₁, hpin₁⟩ := ih₁ hsize₁ hyes
    rw [hdata₁] at ih₂
    obtain ⟨hdata₂, hpin₂⟩ := ih₂ hsize₂ hno
    refine ⟨by simp [hdata, hdata₁, hdata₂, texts, textBytes_append], fun size' => ?_⟩
    simp [pin, generate, hpin, hpin₁, hpin₂]
  | shortCircuit _ _ _ ih ih₁ | binary _ _ _ _ _ ih ih₁ =>
    obtain ⟨hleft, hsize₁, hright⟩ := Addressed.split hsize haddress
    obtain ⟨hdata, hpin⟩ := ih hsize hleft
    rw [hdata] at ih₁
    obtain ⟨hdata₁, hpin₁⟩ := ih₁ hsize₁ hright
    refine ⟨by simp [hdata, hdata₁, texts, textBytes_append], fun size' => ?_⟩
    simp [pin, generate, hpin, hpin₁]
  | index _ _ _ ht ih ih₁ =>
    obtain ⟨hleft, hsize₁, hright⟩ := Addressed.split hsize haddress
    obtain ⟨hdata, hpin⟩ := ih hsize hleft
    rw [hdata] at ih₁
    obtain ⟨hdata₁, hpin₁⟩ := ih₁ hsize₁ hright
    refine ⟨by simp [hdata, hdata₁, texts, textBytes_append], fun size' => ?_⟩
    simp [pin, generate, hpin, hpin₁, ht]

mutual

theorem Stmt.generate_pin : ∀ {s : Stmt} {pos size k : Nat} {c : Chunk},
    s.generate cx pos size = some c → wordSize ∣ size → Addressed address k size s.texts →
      c.data = textBytes s.texts ∧
        ∀ size', (s.pin address k).generate cx pos size' = some c.dry
  | .expr e, pos, size, k, c, h, hsize, haddress => by
    obtain ⟨t, c', h', rfl⟩ := Stmt.generate_expr h
    obtain ⟨hdata, hpin⟩ := Expr.generate_pin h' hsize haddress
    exact ⟨by simp [hdata, texts], fun size' => by simp [pin, generate, hpin]⟩
  | .ifThen test yes, pos, size, k, c, h, hsize, haddress => by
    obtain ⟨t, c₀, c₁, h₀, h₁, rfl⟩ := Stmt.generate_ifThen h
    obtain ⟨htest, hsize₁, hyes⟩ := Addressed.split hsize haddress
    obtain ⟨hdata, hpin⟩ := Expr.generate_pin h₀ hsize htest
    rw [hdata] at h₁
    obtain ⟨hdata₁, hpin₁⟩ := Stmt.generate_pin h₁ hsize₁ hyes
    refine ⟨by simp [hdata, hdata₁, texts, textBytes_append], fun size' => ?_⟩
    simp [pin, generate, hpin, hpin₁]
  | .ifElse test yes no, pos, size, k, c, h, hsize, haddress => by
    obtain ⟨t, c₀, c₁, second, c₂, h₀, h₁, rfl, h₂, rfl⟩ := Stmt.generate_ifElse h
    rw [texts, List.append_assoc] at haddress
    obtain ⟨htest, hsize₁, hrest⟩ := haddress.split hsize
    obtain ⟨hyes, hsize₂, hno⟩ := hrest.split hsize₁
    obtain ⟨hdata, hpin⟩ := Expr.generate_pin h₀ hsize htest
    rw [hdata] at h₁ h₂
    obtain ⟨hdata₁, hpin₁⟩ := Stmt.generate_pin h₁ hsize₁ hyes
    rw [hdata₁] at h₂
    obtain ⟨hdata₂, hpin₂⟩ := Stmt.generate_pin h₂ hsize₂ hno
    refine ⟨by simp [hdata, hdata₁, hdata₂, texts, textBytes_append], fun size' => ?_⟩
    simp [pin, generate, hpin, hpin₁, hpin₂]
  | .whileLoop test body, pos, size, k, c, h, hsize, haddress => by
    obtain ⟨t, c₀, c₁, h₀, h₁, rfl⟩ := Stmt.generate_whileLoop h
    obtain ⟨htest, hsize₁, hbody⟩ := Addressed.split hsize haddress
    obtain ⟨hdata, hpin⟩ := Expr.generate_pin h₀ hsize htest
    rw [hdata] at h₁
    obtain ⟨hdata₁, hpin₁⟩ := Stmt.generate_pin h₁ hsize₁ hbody
    refine ⟨by simp [hdata, hdata₁, texts, textBytes_append], fun size' => ?_⟩
    simp [pin, generate, hpin, hpin₁]
  | .ret none, pos, size, k, c, h, hsize, haddress => by
    simp only [Stmt.generate, Option.some.injEq] at h
    subst h
    exact ⟨rfl, fun _ => rfl⟩
  | .ret (some e), pos, size, k, c, h, hsize, haddress => by
    obtain ⟨t, c', h', rfl⟩ := Stmt.generate_ret_some h
    obtain ⟨hdata, hpin⟩ := Expr.generate_pin h' hsize haddress
    exact ⟨by simp [hdata, texts], fun size' => by simp [pin, generate, hpin]⟩
  | .block body, pos, size, k, c, h, hsize, haddress => by
    obtain ⟨c', h', rfl⟩ := Stmt.generate_block h
    obtain ⟨hdata, hpin⟩ := Stmt.generateAll_pin h' hsize haddress
    exact ⟨by simp [hdata, texts], fun size' => by simp [pin, generate, hpin]⟩
  | .empty, pos, size, k, c, h, hsize, haddress => by
    simp only [Stmt.generate, Option.some.injEq] at h
    subst h
    exact ⟨rfl, fun _ => rfl⟩

theorem Stmt.generateAll_pin : ∀ {body : List Stmt} {pos size k : Nat} {c : Chunk},
    Stmt.generateAll cx pos size body = some c → wordSize ∣ size →
      Addressed address k size (Stmt.textsIn body) →
      c.data = textBytes (Stmt.textsIn body) ∧
        ∀ size', Stmt.generateAll cx pos size' (Stmt.pinIn address k body) = some c.dry
  | [], pos, size, k, c, h, hsize, haddress => by
    simp only [Stmt.generateAll, Option.some.injEq] at h
    subst h
    exact ⟨rfl, fun _ => rfl⟩
  | s :: rest, pos, size, k, c, h, hsize, haddress => by
    obtain ⟨c₁, c₂, h₁, h₂, rfl⟩ := Stmt.generateAll_cons h
    obtain ⟨hfirst, hsize₁, hrest⟩ := Addressed.split hsize haddress
    obtain ⟨hdata, hpin⟩ := Stmt.generate_pin h₁ hsize hfirst
    rw [hdata] at h₂
    obtain ⟨hdata₂, hpin₂⟩ := Stmt.generateAll_pin h₂ hsize₁ hrest
    refine ⟨by simp [hdata, hdata₂, textsIn, textBytes_append], fun size' => ?_⟩
    simp [pinIn, generateAll, hpin, hpin₂]

end

/-- A function with its texts replaced by their addresses has the same code. -/
theorem Item.generate_pin {id : SymbolId} {type : CType} {params locals : List Variable}
    {body : List Stmt} {o o' : Output} {k : Nat}
    (h : Item.generate o (.function id type params locals body) = some o')
    (hsize : wordSize ∣ o.data.length)
    (haddress : Addressed address k o.data.length (Stmt.textsIn body)) :
    o'.data = o.data ++ textBytes (Stmt.textsIn body) ∧
      ∃ o'', Item.generate o (.function id type params locals (Stmt.pinIn address k body)) =
        some o'' ∧ o''.code = o'.code := by
  simp only [Item.generate, Option.bind_eq_bind, Option.bind_eq_some_iff, Option.some.injEq,
    Prod.exists] at h
  obtain ⟨symbols₁, slot, hparams, symbols₂, next, hlocals, c, hc, rfl⟩ := h
  obtain ⟨hdata, hpin⟩ := Stmt.generateAll_pin hc hsize haddress
  have hgenerate : Item.generate o (.function id type params locals (Stmt.pinIn address k body)) =
      some ⟨symbols₂.closeScope, o.bodies ++ [.ofCode [.enter (next - (slot + 1 + 1))] ++ c.dry ++
        .ofCode [.leave]], o.data ++ []⟩ := by
    simp only [Item.generate, Option.bind_eq_bind, hparams, hlocals, hpin, Option.bind_some]
    rfl
  exact ⟨by rw [hdata], _, hgenerate, by simp [Output.code]⟩

end

/-! ## Where objects lie -/

/-- The offsets of texts among other objects are the addresses at which they are stored. -/
theorem addressed_offsetOf (texts : List (List UInt8)) (before after : List DataObject) :
    Addressed (fun k => Word.ofNat (dataBase +
        offsetOf (before ++ texts.map .text ++ after) k))
      before.length (before.flatMap DataObject.bytes).length texts := by
  induction texts generalizing before with
  | nil => exact trivial
  | cons bytes rest ih =>
    have hnext := ih (before ++ [.text bytes])
    simp only [List.append_assoc, List.flatMap_append, List.length_append, List.singleton_append,
      List.length_singleton, List.flatMap_singleton] at hnext
    refine ⟨?_, ?_⟩
    · have hoffset := offsetOf_append before ((bytes :: rest).map .text ++ after) 0
      rw [Nat.add_zero, ← List.append_assoc] at hoffset
      dsimp only
      rw [hoffset]
      rfl
    · simpa only [List.map_cons, List.append_assoc, List.cons_append] using hnext

/-- What the items of a source have stored, and where its global variables lie. -/
structure Stored (items : List Item) (o : Output) : Prop where
  data : o.data = (items.flatMap Item.objects).flatMap DataObject.bytes
  globals : ∀ id, (o.symbols.fileBinding id).kind = .globalVar →
    ∃ k, (items.flatMap Item.objects)[k]? = some (.globalVar id) ∧
      (∀ j, k < j → (items.flatMap Item.objects)[j]? ≠ some (.globalVar id)) ∧
      (o.symbols.fileBinding id).value =
        Word.ofNat (dataBase + offsetOf (items.flatMap Item.objects) k)

theorem Stored.dvd_length {items : List Item} {o : Output} (h : Stored items o) :
    wordSize ∣ o.data.length := by
  rw [h.data]
  exact dvd_length_flatMap _

/-- More objects behind those that are stored, none of which is the variable. -/
theorem exists_latest_append {objects more : List DataObject} {id : SymbolId} {value : Word}
    (h : ∃ k, objects[k]? = some (.globalVar id) ∧
      (∀ j, k < j → objects[j]? ≠ some (.globalVar id)) ∧
      value = Word.ofNat (dataBase + offsetOf objects k))
    (hmore : .globalVar id ∉ more) :
    ∃ k, (objects ++ more)[k]? = some (.globalVar id) ∧
      (∀ j, k < j → (objects ++ more)[j]? ≠ some (.globalVar id)) ∧
      value = Word.ofNat (dataBase + offsetOf (objects ++ more) k) := by
  obtain ⟨k, hk, hlater, rfl⟩ := h
  have hlt := (List.getElem?_eq_some_iff.mp hk).1
  refine ⟨k, by rw [List.getElem?_append_left hlt, hk], fun j hj hmem => ?_, ?_⟩
  · rw [List.getElem?_append] at hmem
    split at hmem
    · exact hlater j hj hmem
    · exact hmore (List.mem_of_getElem? hmem)
  · rw [offsetOf, offsetOf, List.take_append_of_le_length hlt.le]

theorem Stored.item {items : List Item} {item : Item} {o o' : Output} (h : Stored items o)
    (hitem : item.generate o = some o') : Stored (items ++ [item]) o' := by
  have hobjects : (items ++ [item]).flatMap Item.objects =
      items.flatMap Item.objects ++ item.objects := by
    rw [List.flatMap_append, List.flatMap_singleton]
  -- A definition as something else leaves the other variables where they are.
  have hother : ∀ {id t b x}, o.symbols.define? id b = some t → b.kind ≠ .globalVar →
      (t.fileBinding x).kind = .globalVar → t.fileBinding x = o.symbols.fileBinding x := by
    intro id t b x ht hb hkind
    refine (SymbolTable.fileBinding_define_or ht x).resolve_right fun heq => hb ?_
    rw [← heq, hkind]
  cases item with
  | constant id value =>
    obtain ⟨t, ht, rfl⟩ := Item.generate_constant hitem
    rw [Item.objects, List.append_nil] at hobjects
    refine ⟨by rw [hobjects, h.data], fun x hkind => ?_⟩
    have heq := hother ht (by simp) hkind
    rw [heq] at hkind ⊢
    rw [hobjects]
    exact h.globals x hkind
  | globalVar type id =>
    obtain ⟨t, ht, rfl⟩ := Item.generate_globalVar hitem
    refine ⟨by rw [hobjects, h.data]; simp [Item.objects, DataObject.bytes], fun x hkind => ?_⟩
    rw [hobjects]
    by_cases hx : x = id
    · subst hx
      have hlt : x < o.symbols.size := by
        by_contra hge
        rw [SymbolTable.fileBinding_of_size_le
          (by rw [SymbolTable.size_define ht]; exact Nat.le_of_not_lt hge)] at hkind
        simp [Binding.unbound] at hkind
      refine ⟨(items.flatMap Item.objects).length, by simp [Item.objects], fun j hj => ?_, ?_⟩
      · rw [List.getElem?_eq_none
          (by rw [List.length_append, Item.objects, List.length_singleton]; omega)]
        simp
      · have hoffset := offsetOf_append (items.flatMap Item.objects) [DataObject.globalVar x] 0
        rw [Nat.add_zero] at hoffset
        rw [SymbolTable.fileBinding_define_self ht hlt, Item.objects, hoffset, h.data]
        rfl
    · have heq := SymbolTable.fileBinding_of_ne ht (.inl hx)
      rw [heq] at hkind ⊢
      exact exists_latest_append (h.globals x hkind) (by simp [Item.objects, hx])
  | function id type params locals body =>
    obtain ⟨_, _, -, -, -, -, hsymbols⟩ := Item.generate_function hitem
    obtain ⟨hdata, -⟩ := Item.generate_pin hitem h.dvd_length
      (h.data ▸ addressed_offsetOf (Stmt.textsIn body) (items.flatMap Item.objects) [])
    refine ⟨by rw [hobjects, hdata, h.data, List.flatMap_append]; rfl, fun x hkind => ?_⟩
    have heq : o'.symbols.fileBinding x = o.symbols.fileBinding x := by
      rw [hsymbols] at hkind ⊢
      cases ht : o.symbols.define? id ⟨.function, type, Word.ofNat o.code.length⟩ with
      | none => rfl
      | some t =>
        rw [ht] at hkind
        exact hother ht (by simp) hkind
    rw [heq] at hkind ⊢
    rw [hobjects]
    exact exists_latest_append (h.globals x hkind) (by simp [Item.objects])

end Syntax

/-! ## The data segment in memory -/

open Syntax

end MiniC
