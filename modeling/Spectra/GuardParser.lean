import Spectra.GuardTotal
import Spectra.Lexer

/-! `spectra_vs.rules`, the parser of the data sort and the compiler of a `when` guard. -/
namespace Spectra

open TokenParser

/-! ### Durations -/

def unitNs : List (String × ℤ) :=
  [("ns",1),("us",1000),("ms",1000000),("s",1000000000),("m",60000000000),("h",3600000000000),
    ("tick",tickNs)]

/-- `int` of digits with underscores; the interpreter refuses more than 4300 digits. -/
def decimalDigits (text : List Char) : Fallible ℤ :=
  let digits := text.filter (· ≠ '_')
  if 4300 < digits.length then .error ⟨.uncaught,"ValueError","int"⟩
  else .ok (digits.foldl (fun n c => 10*n+(c.toNat-48)) 0 : ℕ)

/-- `duration_ticks` of a duration token, which is digits and a unit. -/
def durationTicks (literal : String) : Fallible ℤ := do
  let digits := literal.toList.takeWhile fun c => Lexer.isDigit c || c = '_'
  let unit := String.ofList (literal.toList.drop digits.length)
  let magnitude ← decimalDigits digits
  match Dict.get? unitNs unit with
  | none => .error ⟨.guardError,"E-SYN-000","unknown duration unit '"++unit++"' in '"++literal++"'"⟩
  | some ns =>
    if magnitude*ns % tickNs ≠ 0 then .error ⟨.guardError,"E-SEM-030","duration '"++literal++"' is "++
      toString (magnitude*ns)++" ns, not a whole number of "++toString tickNs++" ns ticks"⟩
    else pure (magnitude*ns/tickNs)

/-! ### The data sort -/

namespace DataParser

variable (loc : String) (self : TokenParser Node)

def callNode (name : String) (args : List Node) : Fallible Node :=
  match name, args with
  | "abs", [x] => .ok (.abs x)
  | "min", [x,y] => .ok (.min x y)
  | "max", [x,y] => .ok (.max x y)
  | "within", [x,y,d] => .ok (.not (.lt d (.abs (.sub y x))))
  | _, _ => .error (syntaxError loc (name++"/"++toString args.length++" is not a declared operator"))

def parseCall (name : String) : TokenParser Node := fun tokens => do
  let (_,rest) ← expect loc "(" tokens
  let (args,rest) ← TokenParser.list self "," rest
  let (_,rest) ← expect loc ")" rest
  pure (← callNode loc name args,rest)

/-- `self` reads the guard inside a parenthesis. -/
def parsePrim : TokenParser Node := fun tokens => do
  let (token,rest) ← take loc tokens
  if token.text = "(" then do
    let (node,rest) ← self rest
    let (_,rest) ← expect loc ")" rest
    pure (node,rest)
  else match token.kind with
    | .int => do pure (.constInt (← decimalDigits token.text.toList),rest)
    | .dur => do pure (.constDur (← durationTicks token.text),rest)
    | .sym => pure (.constSym (token.text.drop 1).toString,rest)
    | .op => .error (syntaxError loc ("unexpected '"++token.text++"' in the data sort"))
    | .ident =>
      if token.text = "ctl" then
        .error ⟨.guardError,"E-SYN-010",loc++": `ctl.` is not admissible inside the data sort"⟩
      else if token.text = "true" ∨ token.text = "false" then
        pure (.constBool (if token.text = "true" then 1 else 0),rest)
      else if token.text ∈ ["abs","min","max","within"] then parseCall loc self token.text rest
      else do
        let (_,rest) ← expect loc "." rest
        let (name,rest) ← take loc rest
        if name.kind ≠ .ident then .error (syntaxError loc "expected a field name")
        else if token.text ∉ slotNames then .error (syntaxError loc ("'"++token.text++
          "' is not a body slot; slots are ['"++"', '".intercalate slotNames++"']"))
        else pure (.field (token.text++"."++name.text),rest)

/-- `prim (("+" | "-") prim)*`, to the left; each turn takes a token. -/
def sumFrom : ℕ → Node → TokenParser Node
  | turns+1, node, t::rest =>
    if t.text = "+" ∨ t.text = "-" then do
      let (right,rest) ← parsePrim loc self rest
      sumFrom turns (if t.text = "+" then .add node right else .sub node right) rest
    else pure (node,t::rest)
  | _, node, rest => pure (node,rest)

def parseSum : TokenParser Node := fun tokens => do
  let (node,rest) ← parsePrim loc self tokens
  sumFrom loc self rest.length node rest

def comparison (operator : String) (left right : Node) : Node :=
  match operator with
  | "==" => .eq left right
  | "!=" => .not (.eq left right)
  | "<" => .lt left right
  | "<=" => .not (.lt right left)
  | ">" => .lt right left
  | _ => .not (.lt left right)

def parseCmp : TokenParser Node := fun tokens => do
  let (left,rest) ← parseSum loc self tokens
  match rest with
  | t::rest =>
    if t.text ∈ ["==","!=","<","<=",">",">="] then do
      let (right,rest) ← parseSum loc self rest
      pure (comparison t.text left right,rest)
    else pure (left,t::rest)
  | [] => pure (left,[])

def parseNot : TokenParser Node
  | t::rest =>
    if t.text = "not" then do
      let (node,rest) ← parseNot rest
      pure (.not node,rest)
    else parseCmp loc self (t::rest)
  | [] => parseCmp loc self []

def single (conj : Bool) : List Node → Node
  | [node] => node
  | nodes => Node.junction conj nodes

def parseAnd : TokenParser Node := fun tokens => do
  let (terms,rest) ← TokenParser.list (parseNot loc self) "and" tokens
  pure (single true terms,rest)

/-- Each level of nesting takes a token, so their number bounds the depth. -/
def parseOr (loc : String) : ℕ → TokenParser Node
  | 0 => fun _ => .error (syntaxError loc "guard ends early")
  | depth+1 => fun tokens => do
    let (terms,rest) ← TokenParser.list (parseAnd loc (parseOr loc depth)) "or" tokens
    pure (single false terms,rest)

def parse (tokens : List Token) : Fallible Node := do
  let (node,rest) ← parseOr loc tokens.length tokens
  match rest with
  | [] => pure node
  | t::_ => .error (syntaxError loc ("trailing token '"++t.text++"'"))

end DataParser

/-- `compile_when` of a parsed guard. -/
def compileNode (loc : String) (node : Node) : Fallible Node := do
  let type ← node.typeOf loc
  if type ≠ .bool then .error (Node.typeError loc "data-sort guard root is not Bool")
  else do
    let canonical ← node.canonicaliseData
    let again ← canonical.canonicaliseData
    let left ← again.canonicalBytes
    let right ← canonical.canonicalBytes
    if left ≠ right then .error (syntaxError loc "canon(canon(x)) != canon(x)")
    else pure canonical

def compileWhen (isdigit : Char → Bool) (loc text : String) : Fallible (Option Node) :=
  if text.toList.all isSpace then .ok none
  else do
    let tokens ← Lexer.lex isdigit loc text
    let node ← DataParser.parse loc tokens
    pure (some (← compileNode loc node))

/-! ### What the parser builds -/

namespace DataParser

open Node

variable {loc : String} {self : TokenParser Node}

/-- The truth values of a parsed guard are 0 and 1. -/
abbrev Sound (parser : TokenParser Node) : Prop := Yields (All TruthValue) parser

theorem truthValue_leaf {n : Node} (h : n.TruthValue) (hc : n.children = []) : All TruthValue n :=
  .intro h fun c hcm => by rw [hc] at hcm; cases hcm

theorem truthValue_unary {n c : Node} (h : n.TruthValue) (hc : n.children = [c]) (h' : All TruthValue c) :
    All TruthValue n := by
  refine .intro h fun d hd => ?_
  rw [hc] at hd
  exact List.mem_singleton.mp hd ▸ h'

theorem truthValue_pair {n l r : Node} (h : n.TruthValue) (hc : n.children = [l,r]) (hl : All TruthValue l)
    (hr : All TruthValue r) : All TruthValue n := by
  refine .intro h fun d hd => ?_
  rw [hc] at hd
  rcases List.mem_pair.mp hd with rfl | rfl
  · exact hl
  · exact hr

theorem truthValue_callNode {name : String} {args : List Node} {node : Node}
    (h : callNode loc name args = .ok node) (hall : ∀ a ∈ args, All TruthValue a) :
    All TruthValue node := by
  unfold callNode at h
  split at h
  · cases h; exact truthValue_unary trivial rfl (hall _ (by simp))
  · cases h; exact truthValue_pair trivial rfl (hall _ (by simp)) (hall _ (by simp))
  · cases h; exact truthValue_pair trivial rfl (hall _ (by simp)) (hall _ (by simp))
  · rename_i x y d
    cases h
    have hsub : All TruthValue (.sub y x) := truthValue_pair trivial rfl (hall y (by simp)) (hall x (by simp))
    have habs : All TruthValue (.abs (.sub y x)) := truthValue_unary trivial rfl hsub
    have hlt : All TruthValue (.lt d (.abs (.sub y x))) :=
      truthValue_pair trivial rfl (hall d (by simp)) habs
    exact truthValue_unary trivial rfl hlt
  · cases h

theorem Sound.parseCall (h : Sound self) (name : String) : Sound (parseCall loc self name) := by
  intro tokens node rest hn
  obtain ⟨⟨_,rest₁⟩,_,hn⟩ := Runs.bind_ok.mp hn
  obtain ⟨⟨args,rest₂⟩,hargs,hn⟩ := Runs.bind_ok.mp hn
  obtain ⟨⟨_,rest₃⟩,_,hn⟩ := Runs.bind_ok.mp hn
  obtain ⟨made,hmade,hn⟩ := Runs.bind_ok.mp hn
  cases Runs.pure_ok.mp hn
  exact truthValue_callNode hmade (Yields.list h "," _ _ _ hargs).2

theorem Sound.parsePrim (h : Sound self) : Sound (parsePrim loc self) := by
  intro tokens node rest hn
  obtain ⟨⟨token,rest₁⟩,_,hn⟩ := Runs.bind_ok.mp hn
  dsimp only at hn
  split at hn
  · obtain ⟨⟨inner,rest₂⟩,hinner,hn⟩ := Runs.bind_ok.mp hn
    obtain ⟨⟨_,rest₃⟩,_,hn⟩ := Runs.bind_ok.mp hn
    cases Runs.pure_ok.mp hn
    exact h _ _ _ hinner
  · split at hn
    · obtain ⟨n,_,hn⟩ := Runs.bind_ok.mp hn
      cases Runs.pure_ok.mp hn
      exact truthValue_leaf trivial rfl
    · obtain ⟨n,_,hn⟩ := Runs.bind_ok.mp hn
      cases Runs.pure_ok.mp hn
      exact truthValue_leaf trivial rfl
    · cases Runs.pure_ok.mp hn
      exact truthValue_leaf trivial rfl
    · cases hn
    · split at hn
      · cases hn
      · split at hn
        · cases Runs.pure_ok.mp hn
          refine truthValue_leaf ?_ rfl
          by_cases ht : token.text = "true" <;> simp [TruthValue,ht]
        · split at hn
          · exact h.parseCall _ _ _ _ hn
          · obtain ⟨⟨_,rest₂⟩,_,hn⟩ := Runs.bind_ok.mp hn
            obtain ⟨⟨name,rest₃⟩,_,hn⟩ := Runs.bind_ok.mp hn
            dsimp only at hn
            split_ifs at hn
            cases Runs.pure_ok.mp hn
            exact truthValue_leaf trivial rfl

theorem Sound.sumFrom (h : Sound self) (turns : ℕ) :
    ∀ node, All TruthValue node → Sound (sumFrom loc self turns node) := by
  induction turns with
  | zero =>
    intro node hnode tokens m rest hm
    cases Runs.pure_ok.mp hm
    exact hnode
  | succ turns ih =>
    intro node hnode tokens m rest hm
    cases tokens with
    | nil => cases Runs.pure_ok.mp hm; exact hnode
    | cons t tokens =>
      simp only [DataParser.sumFrom] at hm
      split at hm
      · obtain ⟨⟨right,rest'⟩,hright,hm⟩ := Runs.bind_ok.mp hm
        have hright := h.parsePrim _ _ _ hright
        refine ih _ ?_ _ _ _ hm
        split_ifs <;> exact truthValue_pair trivial rfl hnode hright
      · cases Runs.pure_ok.mp hm; exact hnode

theorem Sound.parseSum (h : Sound self) : Sound (parseSum loc self) := by
  intro tokens node rest hn
  obtain ⟨⟨first,rest'⟩,hfirst,hn⟩ := Runs.bind_ok.mp hn
  exact h.sumFrom _ first (h.parsePrim _ _ _ hfirst) _ _ _ hn

theorem truthValue_comparison {operator : String} {left right : Node} (hl : All TruthValue left)
    (hr : All TruthValue right) : All TruthValue (comparison operator left right) := by
  have heq : All TruthValue (.eq left right) := truthValue_pair trivial rfl hl hr
  have hlt : All TruthValue (.lt left right) := truthValue_pair trivial rfl hl hr
  have hgt : All TruthValue (.lt right left) := truthValue_pair trivial rfl hr hl
  unfold comparison
  split
  · exact heq
  · exact truthValue_unary trivial rfl heq
  · exact hlt
  · exact truthValue_unary trivial rfl hgt
  · exact hgt
  · exact truthValue_unary trivial rfl hlt

theorem Sound.parseCmp (h : Sound self) : Sound (parseCmp loc self) := by
  intro tokens node rest hn
  obtain ⟨⟨left,rest'⟩,hleft,hn⟩ := Runs.bind_ok.mp hn
  have hl := h.parseSum _ _ _ hleft
  cases rest' with
  | nil => cases Runs.pure_ok.mp hn; exact hl
  | cons t rest' =>
    dsimp only at hn
    split at hn
    · obtain ⟨⟨right,rest''⟩,hright,hn⟩ := Runs.bind_ok.mp hn
      have hr := h.parseSum _ _ _ hright
      cases Runs.pure_ok.mp hn
      exact truthValue_comparison hl hr
    · cases Runs.pure_ok.mp hn; exact hl

theorem Sound.parseNot (h : Sound self) : Sound (parseNot loc self) := by
  intro tokens
  induction tokens with
  | nil => exact fun node rest hn => h.parseCmp _ _ _ hn
  | cons t tokens ih =>
    intro node rest hn
    simp only [DataParser.parseNot] at hn
    split at hn
    · obtain ⟨⟨inner,rest'⟩,hinner,hn⟩ := Runs.bind_ok.mp hn
      cases Runs.pure_ok.mp hn
      exact truthValue_unary trivial rfl (ih _ _ hinner)
    · exact h.parseCmp _ _ _ hn

theorem truthValue_single {conj : Bool} {terms : List Node} (h : ∀ a ∈ terms, All TruthValue a) :
    All TruthValue (single conj terms) := by
  unfold single
  split
  · exact h _ (by simp)
  · exact truthValue_operands.mpr h

theorem Sound.parseAnd (h : Sound self) : Sound (parseAnd loc self) := by
  intro tokens node rest hn
  obtain ⟨⟨terms,rest'⟩,hterms,hn⟩ := Runs.bind_ok.mp hn
  cases Runs.pure_ok.mp hn
  exact truthValue_single (Yields.list h.parseNot "and" _ _ _ hterms).2

theorem sound_parseOr (depth : ℕ) : Sound (parseOr loc depth) := by
  induction depth with
  | zero => intro tokens node rest hn; cases hn
  | succ depth ih =>
    intro tokens node rest hn
    obtain ⟨⟨terms,rest'⟩,hterms,hn⟩ := Runs.bind_ok.mp hn
    cases Runs.pure_ok.mp hn
    exact truthValue_single (Yields.list ih.parseAnd "or" _ _ _ hterms).2

theorem parse_truthValue {tokens : List Token} {node : Node} (h : parse loc tokens = .ok node) :
    All TruthValue node := by
  obtain ⟨⟨n,rest⟩,hn,h⟩ := Runs.bind_ok.mp h
  cases rest with
  | nil => exact Runs.pure_ok.mp h ▸ sound_parseOr _ _ _ _ hn
  | cons t rest => cases h

end DataParser

/-! ### Canonical guards -/

open Node

/-- The check that the canonical form is stable never decides: only the bytes are taken. -/
theorem compileNode_eq {loc : String} {n : Node} (ht : All TruthValue n) (h : n.typeOf loc = .ok .bool) :
    compileNode loc n = (do
      let canonical ← n.canonicaliseData
      let _ ← canonical.canonicalBytes
      pure canonical) := by
  rw [compileNode,h]
  change (n.canonicaliseData >>= _) = _
  refine Runs.bind_congr fun c hc => ?_
  rw [canonicaliseData_again ht hc]
  change (c.canonicalBytes >>= fun left => c.canonicalBytes >>= _) = _
  refine Runs.bind_congr fun b hb => ?_
  rw [hb]
  simp [bind,Except.bind]

/-- The canonical form of a guard means what the guard means, is its own canonical form and is
that of every regrouping of the guard, whenever it is returned: always, for constants and sizes
that fit. -/
theorem canonical_guard {loc : String} {n : Node} (ht : All TruthValue n) (h : n.typeOf loc = .ok .bool) :
    (All Fits n → n.size < 2^32 → ∃ r b, n.canonicaliseData = .ok r ∧ r.canonicalBytes = .ok b ∧
      compileNode loc n = .ok r) ∧
    ∀ r, n.canonicaliseData = .ok r →
      (∀ env, evalWhen (some r) env = evalWhen (some n) env) ∧
      r.canonicaliseData = .ok r ∧
      compileNode loc n = (do let _ ← r.canonicalBytes; pure r) ∧
      ∀ m s, Regrouped n m → m.canonicaliseData = .ok s → s.canonicalBytes = r.canonicalBytes := by
  obtain ⟨order,hord⟩ := exists_byBytes
  refine ⟨fun hf hs => ?_,fun r hr => ⟨fun env => ?_,canonicaliseData_again ht hr,?_,fun m s hm hms => ?_⟩⟩
  · obtain ⟨r,hr⟩ := canonicaliseData_returns ht hf hs
    have hnormal := normalises_data hord n r ht hr
    obtain ⟨b,hb⟩ := canonicalBytes_returns (hnormal ▸ allFits_normal hf false)
      (hnormal ▸ (size_normal n false).trans_lt hs)
    refine ⟨r,b,hr,hb,?_⟩
    rw [compileNode_eq ht h,hr]
    change (r.canonicalBytes >>= _) = _
    rw [hb]
    rfl
  · have hnormal := normalises_data hord n r ht hr
    rw [evalWhen,evalWhen,hnormal,(eval_normal h ht).1]
  · rw [compileNode_eq ht h,hr]
    rfl
  · have hmt := (hm.truthValue).mp ht
    rw [normalises_data hord m s hmt hms,normalises_data hord n r ht hr,hm.normal_eq ht false]

/-- `1 < number and a.x == b.x`. -/
def comparedGuard (number : ℤ) : Node :=
  .and [.lt (.constInt 1) (.constInt number),.eq (.field "a.x") (.field "b.x")]

theorem canonical_guard_compared : ∃ r, (comparedGuard 2).canonicaliseData = .ok r ∧
    ∀ env, evalWhen (some r) env = evalWhen (some (comparedGuard 2)) env := by
  have htruth : All TruthValue (comparedGuard 2) := by
    refine (@truthValue_operands true _).mpr fun c hc => ?_
    rcases List.mem_pair.mp hc with rfl | rfl
    · exact DataParser.truthValue_pair trivial rfl (DataParser.truthValue_leaf (n := .constInt 1) trivial rfl)
        (DataParser.truthValue_leaf (n := .constInt 2) trivial rfl)
    · exact DataParser.truthValue_pair trivial rfl (DataParser.truthValue_leaf (n := .field "a.x") trivial rfl)
        (DataParser.truthValue_leaf (n := .field "b.x") trivial rfl)
  have hfield : ∀ t ∈ ["a.x","b.x"], All Fits (.field t) := by
    intro t ht
    refine allFits_leaf ⟨by norm_num [value],?_⟩ rfl
    rcases List.mem_pair.mp ht with rfl | rfl <;> exact utf8Text_returns rfl (by decide)
  have hnumber : ∀ v ∈ [(1 : ℤ),2], All Fits (.constInt v) := by
    intro v hv
    refine allFits_leaf (fits_of_plain rfl ?_) rfl
    rcases List.mem_pair.mp hv with rfl | rfl <;> norm_num [value]
  have hfits : All Fits (comparedGuard 2) := by
    refine (@allFits_junction true _).mpr fun c hc => ?_
    have hplain : ∀ n : Node, n.text = "" → n.value = 0 → n.Fits :=
      fun n ht hv => fits_of_plain ht (by rw [hv]; norm_num)
    rcases List.mem_pair.mp hc with rfl | rfl
    · exact allFits_pair (hplain _ rfl rfl) rfl (hnumber 1 (by simp)) (hnumber 2 (by simp))
    · exact allFits_pair (hplain _ rfl rfl) rfl (hfield _ (by simp)) (hfield _ (by simp))
  have h := @canonical_guard "" (comparedGuard 2) htruth rfl
  obtain ⟨r,b,hr,_⟩ := h.1 hfits (by decide)
  exact ⟨r,hr,(h.2 r hr).1⟩

/-- A number beyond 64 bits has no canonical bytes: the nested guard is refused where its
flattening folds to `false`. -/
theorem canonical_guard_wide :
    let nested : Node := .and [comparedGuard (2^63),.constBool 0]
    let flat : Node := .and [.lt (.constInt 1) (.constInt (2^63)),.eq (.field "a.x") (.field "b.x"),.constBool 0]
    nested.typeOf "" = .ok .bool ∧ Regrouped nested flat ∧
      nested.canonicaliseData = .error (widthError "i64") ∧
      ∃ r, flat.canonicaliseData = .ok r ∧ r.canonicalBytes.isOk = true := by
  refine ⟨rfl,.renest true [] _ [.constBool 0],?_,?_⟩
  · have h : (match (Node.and [comparedGuard (2^63),.constBool 0]).canonicaliseData with
        | .error e => decide (e = widthError "i64")
        | .ok _ => false) = true := by decide
    split at h
    · rename_i e he
      rw [he,of_decide_eq_true h]
    · cases h
  · have h : (match (Node.and [.lt (.constInt 1) (.constInt (2^63)),.eq (.field "a.x") (.field "b.x"),
          .constBool 0]).canonicaliseData with
        | .error _ => false
        | .ok r => r.canonicalBytes.isOk) = true := by decide
    split at h
    · cases h
    · exact ⟨_,by assumption,h⟩

end Spectra
