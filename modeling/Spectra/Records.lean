import Spectra.Model

/-! `spectra_core.model`: the records grounding exchanges. Intervals, bundle events,
entities, facts, licences, and rule instances under the identifier their content mints. -/
namespace Spectra

inductive LivenessVerdict where
  | live | blind | suppressed
  deriving DecidableEq, Repr

inductive LicenceBasis where
  | blind | suppressed | obligation
  deriving DecidableEq, Repr

def LicenceBasis.text : LicenceBasis → String
  | .blind => "BLIND"
  | .suppressed => "SUPPRESSED"
  | .obligation => "OBLIGATION"

inductive RuleKind where
  | detect | obligation
  deriving DecidableEq, Repr

/-! ### Intervals -/

def checkNanos (loc : String) (value : ℤ) : Fallible Unit :=
  ensure (-2^63 ≤ value ∧ value < 2^63) ⟨.schemaError,"E-CANON-WIDTH",
    loc++": "++toString value++" does not fit i64 nanoseconds"⟩

def tickNs : ℤ := 1000000000

def tickOf (tNs : ℤ) : ℤ := tNs/tickNs

def Interval.postInit (t0Ns t1Ns : ℤ) : Fallible Unit := checks [
  checkNanos "Interval.t0_ns" t0Ns,
  checkNanos "Interval.t1_ns" t1Ns,
  ensure (t0Ns ≤ t1Ns) (ErrorType.schemaError.mk
    ("Interval: t1_ns "++toString t1Ns++" precedes t0_ns "++toString t0Ns))]

/-- A half-open interval of nanoseconds. -/
structure Interval where
  t0Ns : ℤ
  t1Ns : ℤ
  valid : Interval.postInit t0Ns t1Ns = .ok ()
  deriving DecidableEq

def Interval.of (t0Ns t1Ns : ℤ) : Fallible Interval :=
  validated (Interval.postInit t0Ns t1Ns) fun h => ⟨t0Ns,t1Ns,h⟩

theorem Interval.of_ok {t0 t1 : ℤ} {w : Interval} :
    Interval.of t0 t1 = .ok w ↔ w.t0Ns = t0 ∧ w.t1Ns = t1 := by
  rw [Interval.of,validated_ok]
  constructor
  · rintro ⟨-,rfl⟩; exact ⟨rfl,rfl⟩
  · rintro ⟨rfl,rfl⟩; exact ⟨w.valid,rfl⟩

theorem Interval.le (w : Interval) : w.t0Ns ≤ w.t1Ns := by
  have h := w.valid
  simp only [Interval.postInit,checks_cons,ensure_ok] at h
  exact h.2.2.1

def Interval.isEmpty (w : Interval) : Bool := w.t0Ns = w.t1Ns

def Interval.contains (w : Interval) (tNs : ℤ) : Bool := w.t0Ns ≤ tNs ∧ tNs < w.t1Ns

/-! ### Events and entities -/

structure EventFields where
  eventId : EventId
  sourceId : SourceId
  seq : ℕ
  eventType : String
  tEvtNs : ℤ
  deriving DecidableEq, Repr

def EventFields.postInit (e : EventFields) : Fallible Unit := checks [
  ensure (e.seq < 2^32) (widthError "u32"),
  checkNanos "CanonicalEvent.t_evt_ns" e.tEvtNs]

/-- One bundle record, as far as grounding reads it. -/
structure CanonicalEvent extends EventFields where
  valid : toEventFields.postInit = .ok ()
  deriving DecidableEq

def EventFields.tick (e : EventFields) : ℤ := tickOf e.tEvtNs

/-- The bundle file order. -/
def EventFields.sortKey (e : EventFields) : ℤ ×ₗ SourceId ×ₗ ℕ ×ₗ EventId :=
  toLex (e.tEvtNs,toLex (e.sourceId,toLex (e.seq,e.eventId)))

structure Entity where
  entityId : EntityId
  kind : String
  canonicalName : String
  deriving DecidableEq, Repr

/-! ### Facts -/

/-- args, predicate, tick; the arguments are positional. -/
def factPayload (predicate : String) (args : List EntityId) (tick : ℤ) : Fallible Bytes :=
  Framing.concat [orderedSeq asciiText args,utf8Text predicate,u32 tick]

theorem factPayload_inj {p p' : String} {a a' : List EntityId} {t t' : ℤ} {b : Bytes}
    (h : factPayload p a t = .ok b) (h' : factPayload p' a' t' = .ok b) :
    p = p' ∧ a = a' ∧ t = t' := by
  obtain ⟨ha,b₁,c₁,hb₁,hc₁,h₁⟩ :=
    (orderedSeq_selfDelimiting asciiText_selfDelimiting).peel h h' (x := []) (y := []) rfl
  obtain ⟨hp,b₂,c₂,hb₂,hc₂,h₂⟩ := utf8Text_selfDelimiting.peel hb₁ hc₁ h₁
  obtain ⟨ht,-⟩ := (uint_selfDelimiting "u32" 4).peel hb₂ hc₂ h₂
  exact ⟨hp,ha,ht⟩

/-- A ground, time-indexed predicate instance under the key its content mints. -/
structure Fact (D : Digest) where
  factKey : FactHash
  predicate : String
  args : List EntityId
  tick : ℤ
  minted : ∃ payload, factPayload predicate args tick = .ok payload ∧
    factKey = D.mint "fh" payload 32
  deriving DecidableEq

def Fact.mint (D : Digest) (predicate : String) (args : List EntityId) (tick : ℤ) :
    Fallible (Fact D) :=
  match h : factPayload predicate args tick with
  | .error e => .error e
  | .ok payload => validated (checkTick "Fact.tick" tick) fun _ =>
    ⟨D.mint "fh" payload 32,predicate,args,tick,payload,h,rfl⟩

variable {D : Digest}

theorem Fact.mint_ok {p : String} {a : List EntityId} {t : ℤ} {f : Fact D}
    (h : Fact.mint D p a t = .ok f) : f.predicate = p ∧ f.args = a ∧ f.tick = t := by
  unfold Fact.mint at h
  split at h
  · cases h
  · obtain ⟨-,rfl⟩ := validated_ok.mp h
    exact ⟨rfl,rfl,rfl⟩

theorem Fact.ext_fields {f g : Fact D} (hp : f.predicate = g.predicate) (ha : f.args = g.args)
    (ht : f.tick = g.tick) : f = g := by
  obtain ⟨fk,fp,fa,ft,p,hp₁,rfl⟩ := f
  obtain ⟨gk,gp,ga,gt,q,hq₁,rfl⟩ := g
  simp only at hp ha ht
  subst hp ha ht
  cases hp₁.symm.trans hq₁
  rfl

/-- The key determines the fact. -/
theorem Fact.key_inj {f g : Fact D} (h : f.factKey = g.factKey) : f = g := by
  obtain ⟨p,hp,hf⟩ := f.minted
  obtain ⟨q,hq,hg⟩ := g.minted
  have hpq : p = q := D.mint_injective "fh" 32 (hf.symm.trans (h.trans hg))
  obtain ⟨h₁,h₂,h₃⟩ := factPayload_inj hp (hpq ▸ hq)
  exact Fact.ext_fields h₁ h₂ h₃

theorem Fact.mint_self (f : Fact D) : Fact.mint D f.predicate f.args f.tick = .ok f := by
  obtain ⟨p,hp,hf⟩ := f.minted
  have hrange : 0 ≤ f.tick ∧ f.tick < 2^64 := by
    obtain ⟨-,b₁,-,hb₁,-⟩ := Framing.concat_cons.mp hp
    obtain ⟨-,b₂,-,hb₂,-⟩ := Framing.concat_cons.mp hb₁
    obtain ⟨b₃,-,hb₃,-⟩ := Framing.concat_cons.mp hb₂
    unfold u32 uint at hb₃
    split at hb₃
    · omega
    · cases hb₃
  unfold Fact.mint
  split
  · rename_i h; cases hp.symm.trans h
  · rename_i q h
    refine validated_ok.mpr ⟨ensure_ok.mpr hrange,?_⟩
    exact Fact.ext_fields rfl rfl rfl

/-! ### Licences -/

/-- The witness stays out: one span and one reason are one licence. -/
def licencePayload (basis : LicenceBasis) (reason : String) (sourceId : SourceId)
    (interval : Interval) : Fallible Bytes :=
  Framing.concat [asciiText basis.text,utf8Text reason,asciiText sourceId,i64 interval.t0Ns,
    i64 interval.t1Ns]

structure LicenceFields where
  licenseId : LicenseId
  sourceId : SourceId
  t0Ns : ℤ
  t1Ns : ℤ
  basis : LicenceBasis
  reason : String
  witness : List EventId
  deriving DecidableEq, Repr

def LicenceFields.postInit (l : LicenceFields) : Fallible Unit := checks [
  Interval.postInit l.t0Ns l.t1Ns,
  ensure (l.reason ≠ "") (ErrorType.schemaError.mk
    "Licence.reason is mandatory; a licence without one is unexplained"),
  checkStrictlyAscending "Licence.witness" l.witness,
  ensure (¬(l.basis = .suppressed ∧ l.witness = [])) (ErrorType.schemaError.mk
    "Licence: a SUPPRESSED licence carries its bracketing witness"),
  ensure (¬(l.basis ≠ .suppressed ∧ l.witness ≠ [])) (ErrorType.schemaError.mk
    ("Licence: a "++l.basis.text++" licence carries a reason and no witness"))]

structure Licence extends LicenceFields where
  valid : toLicenceFields.postInit = .ok ()
  deriving DecidableEq

def Licence.mint (D : Digest) (sourceId : SourceId) (interval : Interval) (basis : LicenceBasis)
    (reason : String) (witness : List EventId) : Fallible Licence :=
  match licencePayload basis reason sourceId interval with
  | .error e => .error e
  | .ok payload =>
    let fields : LicenceFields := ⟨D.mint "lic" payload 32,sourceId,interval.t0Ns,interval.t1Ns,
      basis,reason,witness⟩
    validated fields.postInit fun h => ⟨fields,h⟩

def LicenceFields.sortKey (l : LicenceFields) : SourceId ×ₗ ℤ ×ₗ ℤ :=
  toLex (l.sourceId,toLex (l.t0Ns,l.t1Ns))

/-! ### Instances under their minted identifier -/

structure GroundInstance (D : Digest) extends RuleInstance where
  minted : ∃ payload, instancePayload ruleId head body evidence licenseIds = .ok payload ∧
    instanceId = D.mint "in" payload 32
  deriving DecidableEq

def GroundInstance.mint (D : Digest) (ruleId : RuleId) (ruleVersion : String) (head : FactHash)
    (body : List FactHash) (blockers : List Mask) (observation : Observation) (tick : ℤ)
    (evidence : List EvidenceRef) (licenseIds : List LicenseId) (ghost : Bool) :
    Fallible (GroundInstance D) :=
  match h : instancePayload ruleId head body evidence licenseIds with
  | .error e => .error e
  | .ok payload =>
    let fields : InstanceFields := ⟨D.mint "in" payload 32,ruleId,ruleVersion,head,body,blockers,
      observation,tick,evidence,licenseIds,ghost⟩
    validated fields.postInit fun hv => ⟨⟨fields,hv⟩,payload,h,rfl⟩

theorem GroundInstance.mint_ok {r : RuleId} {v : String} {hd : FactHash} {bd : List FactHash}
    {bl : List Mask} {o : Observation} {t : ℤ} {ev : List EvidenceRef} {li : List LicenseId}
    {g : Bool} {i : GroundInstance D} (h : GroundInstance.mint D r v hd bd bl o t ev li g = .ok i) :
    i.toInstanceFields = ⟨i.instanceId,r,v,hd,bd,bl,o,t,ev,li,g⟩ := by
  unfold GroundInstance.mint at h
  split at h
  · cases h
  · obtain ⟨-,rfl⟩ := validated_ok.mp h
    rfl

/-- The identifier pins everything but the version, the masks and the rendering. -/
theorem GroundInstance.id_inj {i j : GroundInstance D} (h : i.instanceId = j.instanceId) :
    i.ruleId = j.ruleId ∧ i.head = j.head ∧ i.body = j.body ∧
      i.evidence.map (·.eventId) = j.evidence.map (·.eventId) ∧ i.licenseIds = j.licenseIds := by
  obtain ⟨p,hp,hi⟩ := i.minted
  obtain ⟨q,hq,hj⟩ := j.minted
  have hpq : p = q := D.mint_injective "in" 32 (hi.symm.trans (h.trans hj))
  exact instancePayload_inj hp (hpq ▸ hq)

end Spectra
