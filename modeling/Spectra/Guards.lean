import Spectra.Rules

/-! `spectra_vs.rules`, the data sort of the guards: types, the canonical bytes of a node and
its canonical form. -/
namespace Spectra

inductive GuardType where
  | bool | int | tick | dur | sym | ent | ctl
  deriving DecidableEq, Repr

namespace GuardType

def text : GuardType → String
  | .bool => "Bool"
  | .int => "Int"
  | .tick => "Tick"
  | .dur => "Dur"
  | .sym => "Sym"
  | .ent => "Ent"
  | .ctl => "Ctl"

def numeric (t : GuardType) : Bool := t = .int || t = .tick || t = .dur

end GuardType

namespace Node

/-! ### The parts of a node -/

def kind : Node → String
  | .constBool _ => "ConstBool"
  | .constInt _ => "ConstInt"
  | .constDur _ => "ConstDur"
  | .constSym _ => "ConstSym"
  | .field _ => "Field"
  | .not _ => "Not"
  | .abs _ => "Abs"
  | .and _ => "And"
  | .or _ => "Or"
  | .eq _ _ => "Eq"
  | .lt _ _ => "Lt"
  | .add _ _ => "Add"
  | .sub _ _ => "Sub"
  | .min _ _ => "Min"
  | .max _ _ => "Max"

def coreKinds : List String :=
  ["ConstBool","ConstInt","ConstDur","ConstSym","Field","Not","Abs","And","Or","Eq","Lt","Add",
    "Sub","MulLit","Min","Max","Threshold"]

def kindTag (n : Node) : ℕ := coreKinds.idxOf n.kind

def children : Node → List Node
  | .not c => [c]
  | .abs c => [c]
  | .and cs => cs
  | .or cs => cs
  | .eq l r => [l,r]
  | .lt l r => [l,r]
  | .add l r => [l,r]
  | .sub l r => [l,r]
  | .min l r => [l,r]
  | .max l r => [l,r]
  | _ => []

def text : Node → String
  | .constSym t => t
  | .field t => t
  | _ => ""

def value : Node → ℤ
  | .constBool v => v
  | .constInt v => v
  | .constDur v => v
  | _ => 0

theorem sizeOf_lt_of_mem_children {n c : Node} (h : c ∈ n.children) : sizeOf c < sizeOf n := by
  cases n with
  | and cs => have := List.sizeOf_lt_of_mem (show c ∈ cs from h); simp; omega
  | or cs => have := List.sizeOf_lt_of_mem (show c ∈ cs from h); simp; omega
  | not d => simp [children] at h; subst h; simp
  | abs d => simp [children] at h; subst h; simp
  | eq l r => simp [children] at h; rcases h with rfl | rfl <;> simp +arith
  | lt l r => simp [children] at h; rcases h with rfl | rfl <;> simp +arith
  | add l r => simp [children] at h; rcases h with rfl | rfl <;> simp +arith
  | sub l r => simp [children] at h; rcases h with rfl | rfl <;> simp +arith
  | min l r => simp [children] at h; rcases h with rfl | rfl <;> simp +arith
  | max l r => simp [children] at h; rcases h with rfl | rfl <;> simp +arith
  | constBool v => simp [children] at h
  | constInt v => simp [children] at h
  | constDur v => simp [children] at h
  | constSym t => simp [children] at h
  | field t => simp [children] at h

/-- Induction on a guard: a property of a node follows from that of its children. -/
theorem ofChildren {motive : Node → Prop} (step : ∀ n, (∀ c ∈ n.children, motive c) → motive n)
    (n : Node) : motive n :=
  step n fun c hc =>
    have := sizeOf_lt_of_mem_children hc
    ofChildren step c
termination_by sizeOf n

/-- A property of a node and of every node below it. -/
inductive All (p : Node → Prop) : Node → Prop where
  | intro {n : Node} (here : p n) (below : ∀ c ∈ n.children, All p c) : All p n

namespace All

variable {p q : Node → Prop} {n : Node}

theorem here (h : All p n) : p n := by cases h; assumption

theorem child (h : All p n) {c : Node} (hc : c ∈ n.children) : All p c := by
  cases h with | intro _ below => exact below c hc

theorem iff_children : All p n ↔ p n ∧ ∀ c ∈ n.children, All p c :=
  ⟨fun h => ⟨h.here,fun _ => h.child⟩,fun h => .intro h.1 h.2⟩

end All

/-! ### Canonical bytes -/

def frame (n : Node) (parts : List (Fallible Bytes)) : Fallible Bytes :=
  Framing.concat [asciiText n.kind,utf8Text n.text,i64 n.value,
    Framing.concat (lengthCode parts.length::parts)]

mutual

def canonicalBytes : Node → Fallible Bytes
  | .not c => frame (.not c) [c.canonicalBytes]
  | .abs c => frame (.abs c) [c.canonicalBytes]
  | .and cs => frame (.and cs) (childBytes cs)
  | .or cs => frame (.or cs) (childBytes cs)
  | .eq l r => frame (.eq l r) [l.canonicalBytes,r.canonicalBytes]
  | .lt l r => frame (.lt l r) [l.canonicalBytes,r.canonicalBytes]
  | .add l r => frame (.add l r) [l.canonicalBytes,r.canonicalBytes]
  | .sub l r => frame (.sub l r) [l.canonicalBytes,r.canonicalBytes]
  | .min l r => frame (.min l r) [l.canonicalBytes,r.canonicalBytes]
  | .max l r => frame (.max l r) [l.canonicalBytes,r.canonicalBytes]
  | .constBool v => frame (.constBool v) []
  | .constInt v => frame (.constInt v) []
  | .constDur v => frame (.constDur v) []
  | .constSym t => frame (.constSym t) []
  | .field t => frame (.field t) []

def childBytes : List Node → List (Fallible Bytes)
  | [] => []
  | c::cs => c.canonicalBytes::childBytes cs

end

theorem childBytes_eq (cs : List Node) : childBytes cs = cs.map canonicalBytes := by
  induction cs with
  | nil => rfl
  | cons c cs ih => rw [childBytes,ih,List.map_cons]

/-- `Node.canonical_bytes`: kind, text, value and the children in order. -/
theorem canonicalBytes_eq (n : Node) : n.canonicalBytes =
    Framing.concat [asciiText n.kind,utf8Text n.text,i64 n.value,orderedSeq canonicalBytes n.children] := by
  cases n with
  | and cs => simp [canonicalBytes,frame,childBytes_eq,children,orderedSeq,Framing.counted]
  | or cs => simp [canonicalBytes,frame,childBytes_eq,children,orderedSeq,Framing.counted]
  | _ => simp [canonicalBytes,frame,children,orderedSeq,Framing.counted]

/-! ### Types -/

/-- `<slot>.t` is a tick; every other field of a slot binds an entity argument. -/
def fieldType (text : String) : GuardType :=
  if ['.','t'] <:+ text.toList then .tick else .ent

def typeError (loc detail : String) : SpectraError := ⟨.guardError,"E-TYP-001",loc++": "++detail⟩

mutual

def typeOf (loc : String) : Node → Fallible GuardType
  | .constBool _ => .ok .bool
  | .constInt _ => .ok .int
  | .constDur _ => .ok .dur
  | .constSym _ => .ok .sym
  | .field text => .ok (fieldType text)
  | .not c => do
    let inner ← c.typeOf loc
    if inner = .bool then pure .bool else .error (typeError loc "`not` applied to a non-Bool")
  | .and cs => do
    checkBools loc "and" cs
    pure .bool
  | .or cs => do
    checkBools loc "or" cs
    pure .bool
  | .eq l r => do
    let left ← l.typeOf loc
    let right ← r.typeOf loc
    if left = right then pure .bool
    else .error (typeError loc ("`==` compares "++left.text++" with "++right.text))
  | .lt l r => do
    let left ← l.typeOf loc
    let right ← r.typeOf loc
    if left = right ∧ left.numeric then pure .bool
    else .error (typeError loc ("`<` compares "++left.text++" with "++right.text))
  | .sub l r => do
    let left ← l.typeOf loc
    let right ← r.typeOf loc
    if left = .tick ∧ right = .tick then pure .dur
    else if left = right ∧ left.numeric then pure left
    else .error (typeError loc ("cannot subtract "++right.text++" from "++left.text))
  | .add l r => do
    let left ← l.typeOf loc
    let right ← r.typeOf loc
    if left = .tick ∧ right = .dur then pure .tick
    else if left = right ∧ left.numeric then pure left
    else .error (typeError loc ("cannot add "++right.text++" to "++left.text))
  | .abs c => do
    let inner ← c.typeOf loc
    if inner.numeric then pure inner else .error (typeError loc ("abs of "++inner.text))
  | .min l r => do
    let left ← l.typeOf loc
    let right ← r.typeOf loc
    if left = right ∧ left.numeric then pure left
    else .error (typeError loc ("min of "++left.text++" and "++right.text))
  | .max l r => do
    let left ← l.typeOf loc
    let right ← r.typeOf loc
    if left = right ∧ left.numeric then pure left
    else .error (typeError loc ("max of "++left.text++" and "++right.text))

def checkBools (loc connective : String) : List Node → Fallible Unit
  | [] => .ok ()
  | c::cs => do
    let inner ← c.typeOf loc
    if inner = .bool then checkBools loc connective cs
    else .error (typeError loc ("`"++connective++"` over a non-Bool"))

end

/-! ### The canonical form -/

/-- The operands of a node of the same connective: `conj` for `And`, otherwise `Or`. -/
def operandsOf (conj : Bool) : Node → Option (List Node)
  | .and cs => if conj then some cs else none
  | .or cs => if conj then none else some cs
  | _ => none

def junction (conj : Bool) (cs : List Node) : Node := if conj then .and cs else .or cs

def truth : Node → Option ℤ
  | .constBool v => some v
  | _ => none

def identityOf (conj : Bool) : ℤ := if conj then 1 else 0

/-- The first entry of each key. -/
def dedupe (seen : List Bytes) : List (Node × Bytes) → List (Node × Bytes)
  | [] => []
  | e::es => if e.2 ∈ seen then dedupe seen es else e::dedupe (e.2::seen) es

/-- The order of the children: kind tag, then canonical bytes. -/
def childLe (a b : Node × Bytes) : Prop :=
  a.1.kindTag < b.1.kindTag ∨ a.1.kindTag = b.1.kindTag ∧ a.2 ≤ b.2

instance : DecidableRel childLe := fun a b => by unfold childLe; infer_instance

def keyedBytes (c : Node) : Fallible (Node × Bytes) := do
  let bytes ← c.canonicalBytes
  pure (c,bytes)

/-- Flatten, drop identities, absorb, dedupe and sort. -/
def combine (conj : Bool) (children : List Node) : Fallible Node :=
  let flattened := children.flatMap fun c => (operandsOf conj c).getD [c]
  let kept := flattened.filter fun c => c.truth ≠ some (identityOf conj)
  if kept.any fun c => c.truth.any (· ≠ identityOf conj) then .ok (.constBool (if conj then 0 else 1))
  else do
    let keyed ← kept.mapM keyedBytes
    let deduped := (dedupe [] keyed).insertionSort childLe
    match deduped.map (·.1) with
    | [] => pure (.constBool (identityOf conj))
    | [c] => pure c
    | cs => pure (junction conj cs)

/-- A constant number: whether it is a duration, and its value. -/
def number : Node → Option (Bool × ℤ)
  | .constInt v => some (false,v)
  | .constDur v => some (true,v)
  | _ => none

def numberNode (dur : Bool) (v : ℤ) : Node := if dur then .constDur v else .constInt v

def foldArith (build : Node → Node → Node) (op : ℤ → ℤ → ℤ) (left right : Node) : Node :=
  match left.number, right.number with
  | some (d,n), some (e,m) => numberNode (d || e) (op n m)
  | _, _ => build left right

def foldAbs (child : Node) : Node :=
  match child.number with
  | some (d,n) => numberNode d (saturate |n|)
  | none => .abs child

/-- A negation in front of a canonical node. -/
def pushNot (self : Node → Fallible Node) : Node → Fallible Node
  | .not c => .ok c
  | .and cs => self (.or (cs.map .not))
  | .or cs => self (.and (cs.map .not))
  | .constBool v => .ok (.constBool (if v = 0 then 1 else 0))
  | c => .ok (.not c)

/-- `_canonicalise_data` over the function it calls on itself. -/
def canonicaliseBody (self : Node → Fallible Node) : Node → Fallible Node
  | .not child => do pushNot self (← self child)
  | .and cs => do combine true (← cs.mapM self)
  | .or cs => do combine false (← cs.mapM self)
  | .eq l r => do pure (.eq (← self l) (← self r))
  | .lt l r => do pure (.lt (← self l) (← self r))
  | .add l r => do pure (foldArith .add (fun n m => saturate (n+m)) (← self l) (← self r))
  | .sub l r => do pure (foldArith .sub (fun n m => saturate (n-m)) (← self l) (← self r))
  | .min l r => do pure (foldArith .min (fun n m => if m < n then m else n) (← self l) (← self r))
  | .max l r => do pure (foldArith .max (fun n m => if n < m then m else n) (← self l) (← self r))
  | .abs c => do pure (foldAbs (← self c))
  | node => pure node

/-- The recursion to a depth; beyond it the interpreter gives up. -/
def canonicaliseWithin : ℕ → Node → Fallible Node
  | 0, _ => .error ⟨.uncaught,"RecursionError","canonicalise_data"⟩
  | fuel+1, n => canonicaliseBody (canonicaliseWithin fuel) n

mutual

/-- The nodes of a guard, with what is below a negation counted `k` times. -/
def weigh (k : ℕ) : Node → ℕ
  | .not c => k*weigh k c
  | .abs c => weigh k c+1
  | .and cs => weighAll k cs+1
  | .or cs => weighAll k cs+1
  | .eq l r => weigh k l+weigh k r+1
  | .lt l r => weigh k l+weigh k r+1
  | .add l r => weigh k l+weigh k r+1
  | .sub l r => weigh k l+weigh k r+1
  | .min l r => weigh k l+weigh k r+1
  | .max l r => weigh k l+weigh k r+1
  | _ => 1

def weighAll (k : ℕ) : List Node → ℕ
  | [] => 0
  | c::cs => weigh k c+weighAll k cs

end

/-- The nodes of a guard other than negations. -/
def size (n : Node) : ℕ := n.weigh 1

/-- A bound on the depth of the recursion: a negation may be pushed to every node below it. -/
def weight (n : Node) : ℕ := n.weigh 2

def canonicaliseData (n : Node) : Fallible Node := canonicaliseWithin n.weight n

end Node

end Spectra
