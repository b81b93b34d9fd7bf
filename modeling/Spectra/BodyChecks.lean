import Spectra.CertificateBody
import Spectra.LivenessDocument
import Spectra.SealCommits
import Spectra.VerdictShapes

/-! What the checker makes of a body that `build_body` returned: the obligations it passes whatever the
side files are, and the exact conditions of the others that read nothing but the body. -/
namespace Spectra

open Checker (Library texts)

/-! ### Python values of JSON -/

namespace PyValue

mutual

/-- The value whose JSON a text is: no tuple, every number finite. -/
def ofJson : Json → PyValue
  | .null => .none
  | .bool b => .bool b
  | .int n => .int n
  | .scalar text => .float text true
  | .str s => .str s
  | .list l => .list (ofJsonItems l)
  | .obj m => .dict (ofJsonMembers m)

def ofJsonItems : List Json → List PyValue
  | [] => []
  | a::as => ofJson a::ofJsonItems as

def ofJsonMembers : List (String × Json) → List (String × PyValue)
  | [] => []
  | (k,v)::m => (k,ofJson v)::ofJsonMembers m

end

end PyValue

namespace Cert

variable {lib : Library} {s : Sections lib}

/-! ### What a body was built from -/

theorem isHashRef_ok {value : String} (h : isHashRef value = .ok ()) :
    Checker.hashRefText (.str value) = some value ∧ value ≠ "" := by
  obtain ⟨b,hb,-⟩ := Runs.bind_ok.mp h
  have hopen : Checker.hasPrefix Checker.hashRefPrefix value = true := by
    unfold parseHashRef at hb
    split at hb
    · assumption
    · cases hb
  obtain ⟨digits,-,hdigits,hlength,-⟩ := parseHashRef_ok hb
  have hsize := hexDigits_length hdigits
  refine ⟨if_pos ⟨hopen,by omega,by rw [hdigits]; rfl⟩,?_⟩
  rintro rfl
  exact absurd hopen (by decide)

theorem Scope.refs (scope : Scope) : ∀ p ∈ scopeToInput, ∃ value, Dict.get? scope.named p.1 = some value ∧
    Checker.hashRefText (.str value) = some value ∧ value ≠ "" := by
  have h := scope.valid
  simp only [ScopeFields.postInit,checks_cons,checks_map,checks_nil,and_true] at h
  have href := fun p hp => isHashRef_ok (h.2 p hp).2
  simp only [scopeToInput,List.forall_mem_cons,List.not_mem_nil,IsEmpty.forall_iff,implies_true,and_true]
    at href ⊢
  obtain ⟨hrules,hcontrols,hliveness,her,hgoal,hbundle⟩ := href
  exact ⟨⟨_,rfl,hbundle⟩,⟨_,rfl,hcontrols⟩,⟨_,rfl,her⟩,⟨_,rfl,hgoal⟩,⟨_,rfl,hliveness⟩,⟨_,rfl,hrules⟩⟩

/-- What the text of the body spells. -/
def Sections.parsed (s : Sections lib) : Json := (Json.obj s.members).readBack

theorem Sections.keys_optional (s : Sections lib) : s.optional.map (·.1) =
    (if s.invariant.isSome then ["invariant"] else [])++(if s.premium.isSome then ["premium"] else [])++
      if s.premiumSuppressedReason.isSome then ["premium_suppressed_reason"] else [] := by
  unfold Sections.optional
  cases s.invariant <;> cases s.premium <;> cases s.premiumSuppressedReason <;> rfl

theorem Sections.optional_sublist (s : Sections lib) :
    (s.optional.map (·.1)).Sublist optionalBodyMembers := by
  have hall : ∀ a b c : Bool, ((if a then ["invariant"] else [])++(if b then ["premium"] else [])++
      if c then ["premium_suppressed_reason"] else []).Sublist optionalBodyMembers := by decide
  rw [s.keys_optional]
  exact hall _ _ _

theorem Sections.nodup_keys (s : Sections lib) : (s.members.map (·.1)).Nodup := by
  have hall : ((s.required.map (·.1))++optionalBodyMembers).Nodup :=
    show (Checker.requiredBodyMembers++optionalBodyMembers).Nodup by decide
  rw [Sections.members,List.map_append]
  exact hall.sublist (s.optional_sublist.append_left _)

theorem Sections.mem_keys {s : Sections lib} {key : String} : key ∈ s.members.map (·.1) ↔
    key ∈ Checker.requiredBodyMembers ∨ key ∈ s.optional.map (·.1) := by
  rw [Sections.members,List.map_append,List.mem_append]
  rfl

theorem Inputs.nodup_members (i : Inputs) : (i.members.map (·.1)).Nodup :=
  show ["bundle_provenance","grounding_mode","implementation","k","seed","rules_hash","rules_text_hash",
    "guard_ast_hash","controls_hash","catalog_bits_hash","bundle_hash","liveness_hash","profile_hash",
    "goal_hash","er_hash","instances_hash"].Nodup by decide

/-- The instances as the checker reads them. -/
def Sections.published (s : Sections lib) : List Checker.Published :=
  s.instances.map fun i => i.toInstanceFields.published

/-- Each pinned file is there and has the digest the inputs name, the rule text apart. -/
def Covered (lib : Library) (inputs : Inputs) (files : Checker.CheckerInputs) : Prop :=
  ∀ c ∈ Checker.inputCoverage, ∃ content, (c.file files).read = .ok content ∧
    (Dict.get? inputs.hashes c.name = some (lib.hashRef c.domain content) ∨ c.name ∈ Checker.advisoryInputs)

mutual

theorem any_place : ∀ (t : Node) (start : ℕ), (t.place start).any (·.kind.isSilent) = t.containsSilent
  | .node _ _ kind _ children _, start => by
    rw [Node.place,Node.containsSilent,List.any_cons,any_placeAll children]

theorem any_placeAll : ∀ (ts : List Node) (start : ℕ), (placeAll start ts).2.any (·.kind.isSilent) = anySilent ts
  | [], _ => rfl
  | t::ts, start => by
    rw [placeAll,anySilent,List.any_append,any_place t,any_placeAll ts]

end

end Cert
end Spectra
