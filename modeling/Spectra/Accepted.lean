import Spectra.Checker

/-! What an accepted certificate satisfies: acceptance is the conjunction of the
obligations, each on what the earlier ones established. -/
namespace Spectra
namespace Checker

@[simp] theorem obligation_ok {α : Type} {name : String} {x : Check α} {a : α} :
    obligation name x = .ok a ↔ x = .ok a := by
  cases x <;> simp [obligation,Except.mapError]

/-- An obligation that holds hands on what it established. -/
theorem obligation_bind {α β : Type} {name : String} {x : Check α} {a : α}
    {f : α → Except (String × Raised) β} (h : x = .ok a) : obligation name x >>= f = f a := by
  rw [h]; rfl

/-- Every obligation holds of the document, and `st` is what they established. -/
structure Established (lib : Library) (content : Bytes) (files : CheckerInputs) (document : Json)
    (st : State) : Prop where
  parsed : parseDocument lib content = .ok document
  body : bodyOf document = .ok st.body
  o0 : o0Canonicity lib content document = .ok ()
  o1 : o1CertHash lib document st.body = .ok ()
  o2 : o2Schema st.body = .ok ()
  o3 : o3Scope st.body = .ok ()
  o4 : o4Inputs lib st.body files = .ok st.instances
  o4b : o4bProfile lib st.body files = .ok ()
  o5 : o5Atoms lib st.body files = .ok st.atoms
  o6 : o6Cut st.body st.atoms = .ok st.cut
  o6b : o6bLevels st.body st.atoms st.cut = .ok st.corridorMasks
  o7 : o7Invariant st.body st.instances = .ok st.invariant
  o8 : o8Closure st.instances st.cut.mask st.invariant = .ok ()
  o9 : o9Goals st.body st.invariant = .ok st.goals
  o10 : o10Licenses lib st.body files st.instances = .ok (st.licences,st.silent)
  o11 : o11Ghost st.body st.instances = .ok ()
  o12 : o12Witnesses lib st.body files st.instances st.atoms st.cut = .ok st.witnesses
  o13 : o13PsiHit lib st.body st.atoms st.cut = .ok st.corridors
  o13b : o13bPremiumSets st.body = .ok ()
  o14 : o14Flags st.body = .ok st.verdict
  o14b : o14bTemporalDispute lib st.body files = .ok ()
  o15 : o15Minimality st.body st.verdict.minimality st.instances st.atoms st.cut st.corridorMasks =
    .ok ()

theorem obligations_ok {lib : Library} {content : Bytes} {files : CheckerInputs} {st : State} :
    obligations lib content files = .ok st ↔ ∃ document, Established lib content files document st := by
  constructor
  · intro h
    simp only [obligations,obligationsFrom,Runs.bind_ok,Runs.pure_ok,obligation_ok] at h
    obtain ⟨document,hp,body,hb,_,h0,_,h1,_,h2,_,h3,instances,h4,_,h4b,atoms,h5,cut,h6,masks,h6b,
      invariant,h7,_,h8,goals,h9,⟨licences,silent⟩,h10,_,h11,witnesses,h12,corridors,h13,_,h13b,
      verdict,h14,_,h14b,_,h15,rfl⟩ := h
    exact ⟨document,⟨hp,hb,h0,h1,h2,h3,h4,h4b,h5,h6,h6b,h7,h8,h9,h10,h11,h12,h13,h13b,h14,h14b,h15⟩⟩
  · rintro ⟨document,h⟩
    simp only [obligations,obligationsFrom,Runs.bind_ok,Runs.pure_ok,obligation_ok]
    exact ⟨document,h.parsed,_,h.body,_,h.o0,_,h.o1,_,h.o2,_,h.o3,_,h.o4,_,h.o4b,_,h.o5,_,h.o6,
      _,h.o6b,_,h.o7,_,h.o8,_,h.o9,_,h.o10,_,h.o11,_,h.o12,_,h.o13,_,h.o13b,_,h.o14,_,h.o14b,
      _,h.o15,rfl⟩

/-- `verify` exits with 0. -/
def Accepted (lib : Library) (content : Bytes) (files : CheckerInputs) : Prop :=
  ∃ report, verify lib content files = .ok report ∧ report.accepted = true

/-- `verify` accepts the certificate, and `st` is what its obligations established. -/
def Accepts (lib : Library) (content : Bytes) (files : CheckerInputs) (st : State) : Prop :=
  Accepted lib content files ∧ obligations lib content files = .ok st

/-- The exit code is 0 exactly when every obligation holds. -/
theorem accepted_iff {lib : Library} {content : Bytes} {files : CheckerInputs} :
    Accepted lib content files ↔ ∃ st, obligations lib content files = .ok st := by
  unfold Accepted verify
  split <;> simp_all [Report.accepted]

theorem accepts_iff {lib : Library} {content : Bytes} {files : CheckerInputs} {st : State} :
    Accepts lib content files st ↔ obligations lib content files = .ok st :=
  ⟨fun h => h.2,fun h => ⟨accepted_iff.mpr ⟨st,h⟩,h⟩⟩

theorem Accepts.established {lib : Library} {content : Bytes} {files : CheckerInputs} {st : State}
    (h : Accepts lib content files st) : ∃ document, Established lib content files document st :=
  obligations_ok.mp h.2

end Checker

end Spectra
