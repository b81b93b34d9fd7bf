import Spectra.BitLock
import Spectra.BodyChecks

/-! A body that `build_body` returned, as the file it is written to: the checker reads it back, and the
obligations that read nothing but the body and the side files settle by what its sections hold. -/
namespace Spectra

open Checker (Library texts)

namespace Cert

variable {lib : Library} {s : Sections lib} {members : List (String × Json)} {content : Bytes}

/-! ### No key twice -/

theorem distinct_texts (l : List String) : (texts l).distinct = true := by
  simp [texts,Json.distinct,Json.distinctItems_iff]

theorem distinct_instance (i : RuleInstance) : i.member.distinct = true := by
  simp [InstanceFields.member,Checker.instanceMember,Checker.evidenceMember,Json.distinct,
    Json.distinctItems_iff,Json.distinctMembers_iff,distinct_texts]

theorem distinct_licence (l : Licence) : l.member.distinct = true := by
  unfold LicenceFields.member
  split <;> simp [Json.distinct,Json.distinctMembers_iff,distinct_texts]

theorem distinct_witness (w : WitnessEntry) : w.asMember.distinct = true := by
  simp [WitnessEntry.asMember,FlatNode.toJson,Json.distinct,Json.distinctItems_iff,Json.distinctMembers_iff]

theorem distinct_inputs (i : Inputs) : i.asMember.distinct = true := by
  refine Json.distinct_obj.mpr ⟨i.nodup_members,?_⟩
  simp [InputsFields.members,InputsFields.hashes,Json.distinct]

theorem distinct_premium (p : Premium) : p.asMember.distinct = true := by
  simp [PremiumFields.asMember,PremiumEntryFields.asMember,Json.distinct,Json.distinctItems_iff,
    Json.distinctMembers_iff,distinct_texts]

theorem Sections.distinct (s : Sections lib) : (Json.obj s.members).distinct = true := by
  refine Json.distinct_obj.mpr ⟨s.nodup_keys,fun p hp => ?_⟩
  rw [Sections.members,List.mem_append] at hp
  rcases hp with hp | hp
  · revert p
    simp only [Sections.required,List.forall_mem_cons,List.not_mem_nil,IsEmpty.forall_iff,implies_true,and_true]
    refine ⟨?_,?_,?_,distinct_texts _,rfl,?_,distinct_inputs _,?_,?_,rfl,?_,?_,rfl,?_,?_,?_,?_⟩
    · simp [atomsMember,Checker.atomsMember,Json.distinct,Json.distinctItems_iff,Json.distinctMembers_iff]
    · simp [BudgetsFields.asMember,Json.distinct,Json.distinctMembers_iff]
    · refine Json.distinct_list.mpr fun j hj => ?_
      obtain ⟨row,-,rfl⟩ := List.mem_map.mp hj
      simp [Json.distinct,Json.distinctMembers_iff]
    · simp [GoalRef.asMember,Checker.goalMember,Json.distinct,Json.distinctItems_iff,Json.distinctMembers_iff]
    · simp [Json.distinct_list,distinct_instance]
    · simp [Json.distinct_list,distinct_licence]
    · simp [PsiFields.asMember,Checker.corridorMember,Json.distinct,Json.distinctItems_iff,Json.distinctMembers_iff]
    · simp [ResidualFields.asMember,Json.distinct,Json.distinctMembers_iff,distinct_texts]
    · simp [ScopeFields.asMember,ScopeFields.named,Json.distinct,Json.distinctMembers_iff]
    · simp [SilentRefFields.asMember,Checker.silentMember,Json.distinct,Json.distinctItems_iff,
        Json.distinctMembers_iff,distinct_texts]
    · cases hw : s.verdict.witnessClass <;>
        simp [VerdictProposal.asMember,hw,Json.distinct,Json.distinctMembers_iff,distinct_texts]
    · simp [Json.distinct_list,distinct_witness]
  · simp only [Sections.optional,List.mem_append,List.mem_map,Option.mem_toList] at hp
    rcases hp with (⟨u,-,rfl⟩ | ⟨p,-,rfl⟩) | ⟨reason,-,rfl⟩
    · simp [Json.distinct,Json.distinctMembers_iff,distinct_texts]
    · exact distinct_premium p
    · rfl

/-! ### The file -/

end Cert
end Spectra
