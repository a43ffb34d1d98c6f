import KeplerFormal.L7Model.CoveredPart
import KeplerFormal.L7Model.PhaseComposition

/-!
# Clock domains of cones (`src/sec/model/SequentialDesignModel.cpp`)

* `markMultiClockDomainConesAsSkipped`: a state that reads a state of another domain and an
  output that reads two domains are skipped; only the direct support is looked at, and states
  without an event have no domain.
* `InCone`: what an expression reads, directly or through next-state expressions.
* `ShowsDomain`, `Sees`: the domains seen through states without an event.
* `BridgesKeepDomain`: such a state leads to no other domain than that of its reader.
* `mark_ne_none`: which keys are marked.
* `dependsOn_composed`: the composition lets a state read through states of its own domain.
* `checkedModel_domainsCovered`: covered cones have one domain when the states without an event
  lead to no other one, and only then where no phases are composed.
-/
namespace KeplerFormal

namespace ExtractionModel
variable (m : ExtractionModel)

open CandidateDependencyScratch

/-! ## Marking -/

/-- A state variable with a recorded event, and its domain.
mirrors src/sec/model/SequentialDesignModel.cpp:4236-4261 -/
def domainByStateVarID (v : Nat) : Option SignalKey :=
  m.stateBits.findSome? fun key =>
    if m.inputVarByKey key = some v then (m.clockEventByStateKey key).map (·.domain) else none

def isClockedStateVar (v : Nat) : Bool := (m.domainByStateVarID v).isSome

def formatClockDomainName (domain : SignalKey) : String := m.displayName domain

/-- mirrors src/sec/model/SequentialDesignModel.cpp:4275-4289 -/
def formatClockDomains (domains : List SignalKey) : String :=
  ", ".intercalate (domains.map m.formatClockDomainName)

/-- The domains of the states that an expression reads, each once and in order.
mirrors src/sec/model/SequentialDesignModel.cpp:4295-4312 -/
def collectClockDomainsFromExpr (expr : BoolExpr) (scratch : CandidateDependencyScratch) :
    List SignalKey × CandidateDependencyScratch :=
  let scratch := collectCandidateStateDependenciesFromExpr m.isClockedStateVar expr scratch
  (((scratch.dependencies.filterMap m.domainByStateVarID).dedup).insertionSort signalKeyLess,
    scratch)

def containsClockDomainOtherThan (domains : List SignalKey) (expectedDomain : SignalKey) : Bool :=
  domains.any fun domain => domain ≠ expectedDomain

def makeMultiClockDomainSkip (detail : String) : ConnectivitySkipInfo := ⟨.MultiClockDomain, detail⟩

/-- The marks so far and the scratch record. -/
abbrev DomainWork := KeyMap ConnectivitySkipInfo × CandidateDependencyScratch

/-- mirrors src/sec/model/SequentialDesignModel.cpp:4385-4411 -/
def markStateDomain (work : DomainWork) (key : SignalKey) : DomainWork :=
  if (work.1 key).isSome then work
  else
    match m.clockEventByStateKey key, m.nextStateExprByStateKey key with
    | some event, some next =>
      let (domains, scratch) := m.collectClockDomainsFromExpr next work.2
      if containsClockDomainOtherThan domains event.domain then
        let info := makeMultiClockDomainSkip
          ("State next-state cone crosses clock domains: " ++ m.formatClockDomains domains)
        (Function.update work.1 key (some info), scratch)
      else (work.1, scratch)
    | _, _ => work

/-- mirrors src/sec/model/SequentialDesignModel.cpp:4413-4431 -/
def markOutputDomain (work : DomainWork) (key : SignalKey) : DomainWork :=
  if (work.1 key).isSome then work
  else
    match m.observedOutputExprByKey key with
    | some expr =>
      let (domains, scratch) := m.collectClockDomainsFromExpr expr work.2
      if domains.length ≤ 1 then (work.1, scratch)
      else
        let info := makeMultiClockDomainSkip
          ("Observed output cone spans clock domains: " ++ m.formatClockDomains domains)
        (Function.update work.1 key (some info), scratch)
    | none => work

/-- mirrors src/sec/model/SequentialDesignModel.cpp:4377-4432 -/
def markMultiClockDomainConesAsSkipped : ExtractionModel :=
  if m.stateBits.any fun key =>
      (m.inputVarByKey key).isSome && (m.clockEventByStateKey key).isSome then
    let marked := m.allObservedOutputs.foldl m.markOutputDomain
      (m.stateBits.foldl m.markStateDomain (m.connectivitySkipInfoByKey, {}))
    { m with connectivitySkipInfoByKey := marked.1 }
  else m

/-! ## Cones and domains -/

/-- The states that an expression reads, directly or through other states. -/
def InCone (expr : BoolExpr) (key : SignalKey) : Prop :=
  ∃ first, m.ReadsState expr first ∧ Relation.ReflTransGen m.DependsOn first key

/-- A state with an event in that domain. -/
def HasDomain (key domain : SignalKey) : Prop :=
  ∃ event, m.clockEventByStateKey key = some event ∧ event.domain = domain

/-- An expression reads a state of that domain. -/
def ReadsDomain (expr : BoolExpr) (domain : SignalKey) : Prop :=
  ∃ source, m.ReadsState expr source ∧ m.HasDomain source domain

def StateCrosses (key : SignalKey) : Prop :=
  ∃ event next, m.clockEventByStateKey key = some event ∧
    m.nextStateExprByStateKey key = some next ∧
    ∃ domain, m.ReadsDomain next domain ∧ domain ≠ event.domain

def OutputCrosses (key : SignalKey) : Prop :=
  ∃ expr domain domain', m.observedOutputExprByKey key = some expr ∧
    m.ReadsDomain expr domain ∧ m.ReadsDomain expr domain' ∧ domain ≠ domain'

/-- A state without an event reads a state. -/
def EventlessStep (key source : SignalKey) : Prop :=
  m.clockEventByStateKey key = none ∧ m.DependsOn key source

/-- A domain is reached through states without an event. -/
def ShowsDomain (key domain : SignalKey) : Prop :=
  ∃ source, Relation.ReflTransGen m.EventlessStep key source ∧ m.HasDomain source domain

/-- An expression reads a domain, if need be through states without an event. -/
def Sees (expr : BoolExpr) (domain : SignalKey) : Prop :=
  ∃ source, m.ReadsState expr source ∧ m.ShowsDomain source domain

/-- Nothing in the way of the output is marked: not itself, and no state of its cone. -/
structure Unmarked (key : SignalKey) (expr : BoolExpr) : Prop where
  observed : key ∈ m.allObservedOutputs
  expressed : m.observedOutputExprByKey key = some expr
  output : m.connectivitySkipInfoByKey key = none ∧ ¬ m.OutputCrosses key
  cone : ∀ source, m.InCone expr source →
    m.connectivitySkipInfoByKey source = none ∧ ¬ m.StateCrosses source

/-- The cone of an expression has states of one domain only. -/
def OneDomain (expr : BoolExpr) : Prop :=
  ∀ source source' domain domain', m.InCone expr source → m.InCone expr source' →
    m.HasDomain source domain → m.HasDomain source' domain' → domain = domain'

/-- Looking through states without an event finds no other domain: not from the expression, and
not from a state with an event in its cone. -/
def SeesOneDomain (expr : BoolExpr) : Prop :=
  (∀ domain domain', m.Sees expr domain → m.Sees expr domain' → domain = domain') ∧
    ∀ source event next domain, m.InCone expr source → m.clockEventByStateKey source = some event →
      m.nextStateExprByStateKey source = some next → m.Sees next domain → domain = event.domain

/-- A state without an event leads to no other domain than that of its reader: of a state with
an event in the cone, or of all that the expression sees. -/
structure BridgesKeepDomain (expr : BoolExpr) : Prop where
  state : ∀ key event source domain, m.InCone expr key →
    m.clockEventByStateKey key = some event → m.DependsOn key source →
    m.clockEventByStateKey source = none → m.ShowsDomain source domain → domain = event.domain
  output : ∀ source domain domain', m.ReadsState expr source →
    m.clockEventByStateKey source = none → m.ShowsDomain source domain →
    m.Sees expr domain' → domain = domain'

/-- So it is for every output without a mark of its own. -/
def BridgesKept : Prop :=
  ∀ key ∈ m.allObservedOutputs, ∀ expr, m.observedOutputExprByKey key = some expr →
    m.connectivitySkipInfoByKey key = none → m.BridgesKeepDomain expr

/-- No negative-edge state reads a positive-edge state of its own domain. -/
def PhasesApart : Prop :=
  ∀ key source event event', m.DependsOn key source → m.clockEventByStateKey key = some event →
    m.clockEventByStateKey source = some event' → event.phase = .Neg → event'.phase = .Pos →
    event.domain ≠ event'.domain

variable {m}

theorem InCone.step {expr : BoolExpr} {key source : SignalKey} (h : m.InCone expr key)
    (hdepends : m.DependsOn key source) : m.InCone expr source := by
  obtain ⟨first, hread, hpath⟩ := h
  exact ⟨first, hread, hpath.tail hdepends⟩

theorem InCone.mem {expr : BoolExpr} {key : SignalKey} (h : m.InCone expr key) :
    key ∈ m.stateBits := by
  obtain ⟨first, hread, hpath⟩ := h
  rcases hpath.cases_tail with rfl | ⟨mid, -, -, next, -, hmem, -⟩
  · exact hread.1
  · exact hmem

theorem InCone.trans {expr : BoolExpr} {key source : SignalKey} (h : m.InCone expr key)
    (hpath : Relation.ReflTransGen m.DependsOn key source) : m.InCone expr source := by
  obtain ⟨first, hread, hfirst⟩ := h
  exact ⟨first, hread, hfirst.trans hpath⟩

theorem ShowsDomain.exists_path {key domain : SignalKey} (h : m.ShowsDomain key domain) :
    ∃ source, Relation.ReflTransGen m.DependsOn key source ∧ m.HasDomain source domain := by
  obtain ⟨source, hpath, hdomain⟩ := h
  exact ⟨source, hpath.lift id fun _ _ hstep => hstep.2, hdomain⟩

theorem Sees.exists_inCone {expr : BoolExpr} {domain : SignalKey} (h : m.Sees expr domain) :
    ∃ source, m.InCone expr source ∧ m.HasDomain source domain := by
  obtain ⟨first, hread, hshows⟩ := h
  obtain ⟨source, hpath, hdomain⟩ := hshows.exists_path
  exact ⟨source, ⟨first, hread, hpath⟩, hdomain⟩

/-- A state of a cone that sees one domain shows every domain below it. -/
theorem SeesOneDomain.showsDomain {expr : BoolExpr} (h : m.SeesOneDomain expr)
    {key source domain : SignalKey} (hkey : m.InCone expr key)
    (hpath : Relation.ReflTransGen m.DependsOn key source) (hdomain : m.HasDomain source domain) :
    m.ShowsDomain key domain := by
  induction hpath using Relation.ReflTransGen.head_induction_on with
  | refl => exact ⟨source, .refl, hdomain⟩
  | @head key mid hdepends _ ih =>
    obtain ⟨target, hshown, htarget⟩ := ih (hkey.step hdepends)
    cases hevent : m.clockEventByStateKey key with
    | none => exact ⟨target, hshown.head ⟨hevent, hdepends⟩, htarget⟩
    | some event =>
      -- the check of this state would see the domain through `mid`
      obtain ⟨-, next, hnext, hread⟩ := hdepends
      have hsame := h.2 key event next domain hkey hevent hnext
        ⟨mid, hread, target, hshown, htarget⟩
      exact ⟨key, .refl, event, hevent, hsame.symm⟩

/-- A cone has one domain exactly when one is seen. -/
theorem oneDomain_iff {expr : BoolExpr} : m.OneDomain expr ↔ m.SeesOneDomain expr := by
  constructor
  · intro h
    refine ⟨fun domain domain' hsees hsees' => ?_, fun source event next domain hcone hevent hnext
      hsees => ?_⟩
    · obtain ⟨source, hcone, hdomain⟩ := hsees.exists_inCone
      obtain ⟨source', hcone', hdomain'⟩ := hsees'.exists_inCone
      exact h source source' domain domain' hcone hcone' hdomain hdomain'
    · obtain ⟨first, hread, hshows⟩ := hsees
      obtain ⟨target, hpath, hdomain⟩ := hshows.exists_path
      have htarget := (hcone.step ⟨hcone.mem, next, hnext, hread⟩).trans hpath
      exact h target source domain event.domain htarget hcone hdomain ⟨event, hevent, rfl⟩
  · intro h source source' domain domain' hcone hcone' hdomain hdomain'
    obtain ⟨first, hread, hpath⟩ := hcone
    obtain ⟨first', hread', hpath'⟩ := hcone'
    apply h.1
    · exact ⟨first, hread, h.showsDomain ⟨first, hread, .refl⟩ hpath hdomain⟩
    · exact ⟨first', hread', h.showsDomain ⟨first', hread', .refl⟩ hpath' hdomain'⟩

/-! ## Bridges -/

/-- A domain is read, or it is shown by a state without an event. -/
theorem Sees.reads_or {expr : BoolExpr} {domain : SignalKey} (h : m.Sees expr domain) :
    m.ReadsDomain expr domain ∨ ∃ source, m.ReadsState expr source ∧
      m.clockEventByStateKey source = none ∧ m.ShowsDomain source domain := by
  obtain ⟨source, hread, hshows⟩ := h
  cases hevent : m.clockEventByStateKey source with
  | none => exact .inr ⟨source, hread, hevent, hshows⟩
  | some event =>
    obtain ⟨target, hpath, hdomain⟩ := hshows
    rcases hpath.cases_head with rfl | ⟨mid, ⟨hnone, -⟩, -⟩
    · exact .inl ⟨source, hread, hdomain⟩
    · rw [hevent] at hnone
      cases hnone

/-- The checks that are made leave only the states without an event. -/
theorem Unmarked.seesOneDomain_iff {key : SignalKey} {expr : BoolExpr} (h : m.Unmarked key expr) :
    m.SeesOneDomain expr ↔ m.BridgesKeepDomain expr := by
  constructor
  · intro hsees
    refine ⟨fun key event source domain hcone hevent hdepends _ hshows => ?_,
      fun source domain domain' hread _ hshows hsees' => hsees.1 domain domain'
        ⟨source, hread, hshows⟩ hsees'⟩
    obtain ⟨-, next, hnext, hread⟩ := hdepends
    exact hsees.2 key event next domain hcone hevent hnext ⟨source, hread, hshows⟩
  · intro hbridges
    refine ⟨fun domain domain' hsees hsees' => ?_,
      fun source event next domain hcone hevent hnext hsees => ?_⟩
    · rcases hsees.reads_or with hread | ⟨source, hread, hnone, hshows⟩
      · rcases hsees'.reads_or with hread' | ⟨source', hread', hnone', hshows'⟩
        · by_contra hne
          exact h.output.2 ⟨expr, domain, domain', h.expressed, hread, hread', hne⟩
        · exact (hbridges.output source' domain' domain hread' hnone' hshows' hsees).symm
      · exact hbridges.output source domain domain' hread hnone hshows hsees'
    · rcases hsees.reads_or with hread | ⟨mid, hread, hnone, hshows⟩
      · by_contra hne
        exact (h.cone source hcone).2 ⟨event, next, hevent, hnext, domain, hread, hne⟩
      · exact hbridges.state source event mid domain hcone hevent ⟨hcone.mem, next, hnext, hread⟩
          hnone hshows

/-! ## Composition -/

/-- A composed state reads what it read, or what a state of its own domain reads that it read. -/
theorem dependsOn_composed (hwf : m.WellFormed) {done : List SignalKey} {key source : SignalKey}
    (h : (m.withNext (m.composedNext done)).DependsOn key source) :
    m.DependsOn key source ∨ ∃ mid event, m.clockEventByStateKey key = some event ∧
      m.HasDomain mid event.domain ∧ m.DependsOn key mid ∧ m.DependsOn mid source := by
  obtain ⟨hmem, composed, hcomposed, hsource, v, hvar, hsupport⟩ := h
  obtain ⟨next, hnext, hmatch⟩ := Option.map_eq_some_iff.mp hcomposed
  cases hevent : m.clockEventByStateKey key with
  | none =>
    simp only [hevent] at hmatch
    rw [← hmatch] at hsupport
    exact .inl ⟨hmem, next, hnext, hsource, v, hvar, hsupport⟩
  | some event =>
    simp only [hevent] at hmatch
    split at hmatch
    · rw [← hmatch] at hsupport
      obtain ⟨w, hw, h2⟩ := hwf.mapped source hsource
      obtain rfl : v = w := Option.some.inj (hvar.symm.trans hw)
      obtain ⟨x, hx, hread⟩ := mem_support_plainSubstitution hsupport h2
      cases hlookup : (m.posedgeNextByVarID event.domain).lookup x with
      | none =>
        rw [hlookup] at hread
        obtain rfl := Finset.mem_singleton.mp hread
        exact .inl ⟨hmem, next, hnext, hsource, v, hvar, hx⟩
      | some inner =>
        rw [hlookup] at hread
        obtain ⟨mid, hmid, hinner, hdomain⟩ := (lookup_posedgeNextByVarID hwf _ x inner).mp hlookup
        obtain ⟨hmid, hx'⟩ := (stateKeyOf_eq_some hwf).mp hmid
        obtain ⟨event', hevent', -, hsame⟩ := inDomain_eq_true.mp hdomain
        refine .inr ⟨mid, event, rfl, ⟨event', hevent', hsame⟩,
          ⟨hmem, next, hnext, hmid, x, hx', hx⟩, hmid, inner, hinner, hsource, v, hvar, hread⟩
    · rw [← hmatch] at hsupport
      exact .inl ⟨hmem, next, hnext, hsource, v, hvar, hsupport⟩

theorem inCone_composed (hwf : m.WellFormed) {done : List SignalKey} {expr : BoolExpr}
    {key : SignalKey} (h : (m.withNext (m.composedNext done)).InCone expr key) :
    m.InCone expr key := by
  obtain ⟨first, hread, hpath⟩ := h
  induction hpath with
  | refl => exact ⟨first, hread, .refl⟩
  | tail _ hdepends ih =>
    rcases dependsOn_composed hwf hdepends with hown | ⟨mid, -, -, -, hmid, hsource⟩
    · exact ih.step hown
    · exact (ih.step hmid).step hsource

/-- States without an event keep their expressions. -/
theorem eventlessStep_composed {done : List SignalKey} :
    (m.withNext (m.composedNext done)).EventlessStep = m.EventlessStep := by
  funext key source
  refine propext (and_congr_right fun hnone => ?_)
  have hnone' : m.clockEventByStateKey key = none := hnone
  have hkeep : m.composedNext done key = m.nextStateExprByStateKey key := by
    unfold composedNext
    cases m.nextStateExprByStateKey key <;> simp [hnone']
  unfold DependsOn
  rw [withNext_next, hkeep]
  rfl

theorem showsDomain_composed {done : List SignalKey} {key domain : SignalKey} :
    (m.withNext (m.composedNext done)).ShowsDomain key domain ↔ m.ShowsDomain key domain := by
  unfold ShowsDomain
  rw [eventlessStep_composed]
  rfl

theorem BridgesKeepDomain.composed (hwf : m.WellFormed) {done : List SignalKey} {expr : BoolExpr}
    (h : m.BridgesKeepDomain expr) :
    (m.withNext (m.composedNext done)).BridgesKeepDomain expr where
  state key event source domain hcone hevent hdepends hnone hshows := by
    have hcone' := inCone_composed hwf hcone
    have hshows' := showsDomain_composed.mp hshows
    rcases dependsOn_composed hwf hdepends with hown | ⟨mid, event', hevent', hmid, hread, hsource⟩
    · exact h.state key event source domain hcone' hevent hown hnone hshows'
    · -- the state in between has an event of the same domain, and its own check applies
      obtain ⟨midEvent, hmidEvent, hsame⟩ := hmid
      obtain rfl : event' = event := Option.some.inj (hevent'.symm.trans hevent)
      rw [← hsame]
      exact h.state mid midEvent source domain (hcone'.step hread) hmidEvent hsource hnone hshows'
  output source domain domain' hread hnone hshows hsees := by
    obtain ⟨source', hread', hshows'⟩ := hsees
    exact h.output source domain domain' hread hnone (showsDomain_composed.mp hshows)
      ⟨source', hread', showsDomain_composed.mp hshows'⟩

/-- Where no phases meet, nothing is composed. -/
theorem PhasesApart.compose_eq_self (h : m.PhasesApart) (hwf : m.WellFormed) :
    m.composeSameDomainPhaseTransitions = m := by
  obtain ⟨done, -, heq⟩ := compose_eq hwf
  have hkeep : m.composedNext done = m.nextStateExprByStateKey := by
    funext key
    unfold composedNext
    cases hnext : m.nextStateExprByStateKey key with
    | none => rfl
    | some next =>
      cases hevent : m.clockEventByStateKey key with
      | none => rfl
      | some event =>
        simp only [Option.map_some, Option.some.injEq]
        split
        · rename_i hneg
          obtain ⟨hmem, hphase, -⟩ := hneg
          apply plainSubstitution_eq_self
          intro v hv
          cases hlookup : (m.posedgeNextByVarID event.domain).lookup v with
          | none => rfl
          | some inner =>
            obtain ⟨source, hsource, -, hdomain⟩ :=
              (lookup_posedgeNextByVarID hwf _ v inner).mp hlookup
            obtain ⟨hsource, hvar⟩ := (stateKeyOf_eq_some hwf).mp hsource
            obtain ⟨event', hevent', hpos, hsame⟩ := inDomain_eq_true.mp hdomain
            exact absurd hsame.symm (h key source event event'
              ⟨hmem, next, hnext, hsource, v, hvar, hv⟩ hevent hevent' hphase hpos)
        · rfl
  rw [heq, hkeep]
  rfl

/-! ## What is marked -/

theorem domainByStateVarID_eq_some (hwf : m.WellFormed) {v : Nat} {domain : SignalKey} :
    m.domainByStateVarID v = some domain ↔
      ∃ key ∈ m.stateBits, m.inputVarByKey key = some v ∧ m.HasDomain key domain := by
  unfold domainByStateVarID HasDomain
  constructor
  · intro h
    obtain ⟨key, hkey, hvalue⟩ := List.exists_of_findSome?_eq_some h
    obtain ⟨hvar, hevent⟩ := Option.ite_none_right_eq_some.mp hvalue
    obtain ⟨event, hevent, hdomain⟩ := Option.map_eq_some_iff.mp hevent
    exact ⟨key, hkey, hvar, event, hevent, hdomain⟩
  · intro h
    obtain ⟨key, hkey, hvar, event, hevent, hdomain⟩ := h
    cases hfind : m.stateBits.findSome? fun key =>
        if m.inputVarByKey key = some v then (m.clockEventByStateKey key).map (·.domain)
        else none with
    | none =>
      have hnone := List.findSome?_eq_none_iff.mp hfind key hkey
      simp [hvar, hevent] at hnone
    | some domain' =>
      obtain ⟨key', hkey', hvalue⟩ := List.exists_of_findSome?_eq_some hfind
      obtain ⟨hvar', hevent'⟩ := Option.ite_none_right_eq_some.mp hvalue
      have hsame := hwf.distinct key' hkey' key hkey (hvar'.trans hvar.symm)
      rw [hsame, hevent] at hevent'
      have hdomain' : event.domain = domain' := Option.some.inj hevent'
      rw [← hdomain', hdomain]

/-- The collected domains are those of the states read. -/
theorem mem_collectClockDomains (hwf : m.WellFormed) {scratch : CandidateDependencyScratch}
    (h : scratch.Fresh) (expr : BoolExpr) (domain : SignalKey) :
    domain ∈ (m.collectClockDomainsFromExpr expr scratch).1 ↔ m.ReadsDomain expr domain := by
  obtain ⟨-, -, hmem⟩ := collect_spec m.isClockedStateVar h expr
  unfold collectClockDomainsFromExpr
  rw [List.mem_insertionSort, List.mem_dedup, List.mem_filterMap]
  constructor
  · intro h
    obtain ⟨v, hv, hdomain⟩ := h
    obtain ⟨key, hkey, hvar, hdomain⟩ := (domainByStateVarID_eq_some hwf).mp hdomain
    exact ⟨key, ⟨hkey, v, hvar, ((hmem v).mp hv).2.2⟩, hdomain⟩
  · intro h
    obtain ⟨key, ⟨hkey, v, hvar, hread⟩, hdomain⟩ := h
    have hfound := (domainByStateVarID_eq_some hwf).mpr ⟨key, hkey, hvar, hdomain⟩
    obtain ⟨v', hvar', h2⟩ := hwf.mapped key hkey
    rw [hvar] at hvar'
    cases hvar'
    refine ⟨v, (hmem v).mpr ⟨h2, ?_, hread⟩, hfound⟩
    rw [isClockedStateVar, hfound, Option.isSome_some]

theorem fresh_collectClockDomains {scratch : CandidateDependencyScratch} (h : scratch.Fresh)
    (expr : BoolExpr) : (m.collectClockDomainsFromExpr expr scratch).2.Fresh :=
  (collect_spec m.isClockedStateVar h expr).1

theorem nodup_collectClockDomains (expr : BoolExpr) (scratch : CandidateDependencyScratch) :
    (m.collectClockDomainsFromExpr expr scratch).1.Nodup := by
  unfold collectClockDomainsFromExpr
  rw [(List.perm_insertionSort _ _).nodup_iff]
  exact List.nodup_dedup _

theorem update_ne_none {map : KeyMap ConnectivitySkipInfo} {key key' : SignalKey}
    {info : ConnectivitySkipInfo} :
    Function.update map key (some info) key' ≠ none ↔ map key' ≠ none ∨ key' = key := by
  by_cases hsame : key' = key
  · simp [hsame]
  · simp [hsame]

/-- What a step on one key does: it marks the key when it crosses. -/
structure MarksWhen (crosses : Prop) (key : SignalKey) (work work' : DomainWork) : Prop where
  fresh : work'.2.Fresh
  marks : ∀ key', work'.1 key' ≠ none ↔ work.1 key' ≠ none ∨ key' = key ∧ crosses

/-- A key that is marked or does not cross is left alone. -/
theorem MarksWhen.unchanged {crosses : Prop} {key : SignalKey} {work : DomainWork}
    {scratch : CandidateDependencyScratch} (h : scratch.Fresh)
    (hkeep : crosses → work.1 key ≠ none) : MarksWhen crosses key work (work.1, scratch) where
  fresh := h
  marks key' := by
    refine ⟨.inl, fun hmarked => hmarked.elim id fun hcross => ?_⟩
    rw [hcross.1]
    exact hkeep hcross.2

theorem MarksWhen.marked {crosses : Prop} {key : SignalKey} {work : DomainWork}
    {scratch : CandidateDependencyScratch} (h : scratch.Fresh) (hcrosses : crosses)
    (info : ConnectivitySkipInfo) :
    MarksWhen crosses key work (Function.update work.1 key (some info), scratch) where
  fresh := h
  marks key' := by
    rw [update_ne_none, and_iff_left hcrosses]

theorem markStateDomain_spec (hwf : m.WellFormed) {work : DomainWork} (h : work.2.Fresh)
    (key : SignalKey) : MarksWhen (m.StateCrosses key) key work (m.markStateDomain work key) := by
  unfold markStateDomain
  split
  · rename_i hsome
    exact .unchanged h fun _ => Option.isSome_iff_ne_none.mp hsome
  · cases hevent : m.clockEventByStateKey key with
    | none =>
      refine .unchanged h fun hcross => ?_
      obtain ⟨event, -, hevent', -⟩ := hcross
      rw [hevent] at hevent'
      cases hevent'
    | some event =>
      cases hnext : m.nextStateExprByStateKey key with
      | none =>
        refine .unchanged h fun hcross => ?_
        obtain ⟨-, next, -, hnext', -⟩ := hcross
        rw [hnext] at hnext'
        cases hnext'
      | some next =>
        have hmem := mem_collectClockDomains hwf h next
        have hfresh := fresh_collectClockDomains (m := m) h next
        dsimp only
        split
        · rename_i hother
          obtain ⟨domain, hdomain, hne⟩ := List.any_eq_true.mp hother
          exact .marked hfresh ⟨event, next, hevent, hnext, domain, (hmem domain).mp hdomain,
            of_decide_eq_true hne⟩ _
        · rename_i hother
          refine .unchanged hfresh fun hcross => absurd ?_ hother
          obtain ⟨event', next', hevent', hnext', domain, hdomain, hne⟩ := hcross
          rw [hevent] at hevent'
          rw [hnext] at hnext'
          cases hevent'
          cases hnext'
          exact List.any_eq_true.mpr ⟨domain, (hmem domain).mpr hdomain, decide_eq_true hne⟩

/-- A list without repetitions has two members exactly when it is longer than one. -/
theorem exists_ne_of_length {keys : List SignalKey} (hkeys : keys.Nodup) :
    ¬ keys.length ≤ 1 ↔ ∃ key ∈ keys, ∃ key' ∈ keys, key ≠ key' := by
  rw [not_le, ← List.toFinset_card_of_nodup hkeys, Finset.one_lt_card]
  simp only [List.mem_toFinset]

theorem markOutputDomain_spec (hwf : m.WellFormed) {work : DomainWork} (h : work.2.Fresh)
    (key : SignalKey) : MarksWhen (m.OutputCrosses key) key work (m.markOutputDomain work key) := by
  unfold markOutputDomain
  split
  · rename_i hsome
    exact .unchanged h fun _ => Option.isSome_iff_ne_none.mp hsome
  · cases hexpr : m.observedOutputExprByKey key with
    | none =>
      refine .unchanged h fun hcross => ?_
      obtain ⟨expr, -, -, hexpr', -⟩ := hcross
      rw [hexpr] at hexpr'
      cases hexpr'
    | some expr =>
      have hmem := mem_collectClockDomains hwf h expr
      have hfresh := fresh_collectClockDomains (m := m) h expr
      have hlength := exists_ne_of_length (nodup_collectClockDomains (m := m) expr work.2)
      dsimp only
      split
      · rename_i hone
        refine .unchanged hfresh fun hcross => absurd hone (hlength.mpr ?_)
        obtain ⟨expr', domain, domain', hexpr', hread, hread', hne⟩ := hcross
        rw [hexpr] at hexpr'
        cases hexpr'
        exact ⟨domain, (hmem domain).mpr hread, domain', (hmem domain').mpr hread', hne⟩
      · rename_i htwo
        obtain ⟨domain, hdomain, domain', hdomain', hne⟩ := hlength.mp htwo
        exact .marked hfresh ⟨expr, domain, domain', hexpr, (hmem domain).mp hdomain,
          (hmem domain').mp hdomain', hne⟩ _

theorem foldl_marksWhen {step : DomainWork → SignalKey → DomainWork} {crosses : SignalKey → Prop}
    (hstep : ∀ work key, work.2.Fresh → MarksWhen (crosses key) key work (step work key))
    (keys : List SignalKey) (work : DomainWork) (h : work.2.Fresh) :
    (keys.foldl step work).2.Fresh ∧ ∀ key', (keys.foldl step work).1 key' ≠ none ↔
      work.1 key' ≠ none ∨ key' ∈ keys ∧ crosses key' := by
  induction keys generalizing work with
  | nil => exact ⟨h, by simp⟩
  | cons key keys ih =>
    have hone := hstep work key h
    obtain ⟨hfresh, hmarks⟩ := ih _ hone.fresh
    refine ⟨hfresh, fun key' => ?_⟩
    rw [List.foldl_cons, hmarks, hone.marks, or_assoc]
    refine or_congr_right ?_
    rw [List.mem_cons, or_and_right]
    refine or_congr_left (and_congr_right fun hsame => ?_)
    rw [hsame]

/-- A state with an event has a clocked variable, else no cone crosses. -/
theorem not_crosses_of_noDomain (hnone : ¬ (m.stateBits.any fun key =>
      (m.inputVarByKey key).isSome && (m.clockEventByStateKey key).isSome) = true)
    {expr : BoolExpr} {domain : SignalKey} : ¬ m.ReadsDomain expr domain := by
  intro h
  obtain ⟨source, ⟨hmem, v, hvar, -⟩, event, hevent, -⟩ := h
  exact hnone (List.any_eq_true.mpr ⟨source, hmem, by simp [hvar, hevent]⟩)

/-- The keys that are marked after the pass. -/
theorem mark_ne_none (hwf : m.WellFormed) :
    ∃ info, m.markMultiClockDomainConesAsSkipped = { m with connectivitySkipInfoByKey := info } ∧
      ∀ key, info key ≠ none ↔ m.connectivitySkipInfoByKey key ≠ none ∨
        key ∈ m.stateBits ∧ m.StateCrosses key ∨ key ∈ m.allObservedOutputs ∧ m.OutputCrosses key
      := by
  unfold markMultiClockDomainConesAsSkipped
  split
  · refine ⟨_, rfl, fun key => ?_⟩
    obtain ⟨hfresh, hstates⟩ := foldl_marksWhen (fun work key h => markStateDomain_spec hwf h key)
      m.stateBits (m.connectivitySkipInfoByKey, {}) fresh_default
    obtain ⟨-, houtputs⟩ := foldl_marksWhen (fun work key h => markOutputDomain_spec hwf h key)
      m.allObservedOutputs _ hfresh
    rw [houtputs, hstates, or_assoc]
  · rename_i hnone
    refine ⟨_, rfl, fun key => ⟨.inl, fun h => h.elim id fun hcross => ?_⟩⟩
    rcases hcross with ⟨-, event, next, -, -, domain, hread, -⟩ | ⟨-, expr, domain, -, -, hread, -⟩
    · exact absurd hread (not_crosses_of_noDomain hnone)
    · exact absurd hread (not_crosses_of_noDomain hnone)

/-! ## The covered outputs -/

/-- The end of extraction, from the rebuilt transitions on. -/
def checkedModel (m : ExtractionModel) (stateSchedule outputSchedule : Schedule) :
    Except String ExtractionModel :=
  m.composeSameDomainPhaseTransitions.markMultiClockDomainConesAsSkipped.coveredModel
    stateSchedule outputSchedule

/-- Every covered output rests on one clock domain. -/
def DomainsCovered (covered : ExtractionModel) : Prop :=
  ∀ key ∈ covered.observedOutputs, ∀ expr, covered.observedOutputExprByKey key = some expr →
    covered.OneDomain expr

/-- What is left of a covered key is as before. -/
structure Restricts (m covered : ExtractionModel) : Prop where
  states : ∀ key ∈ covered.stateBits, key ∈ m.stateBits ∧
    covered.inputVarByKey key = m.inputVarByKey key ∧
    covered.nextStateExprByStateKey key = m.nextStateExprByStateKey key ∧
    covered.clockEventByStateKey key = m.clockEventByStateKey key
  outputs : ∀ key ∈ covered.observedOutputs,
    covered.observedOutputExprByKey key = m.observedOutputExprByKey key

theorem restricts_partition (hobserved : m.observedOutputs = []) :
    Restricts m m.partitionCoveredSignals.validateExtractedModel where
  states key hkey := by
    obtain ⟨hmem, hcovered⟩ := List.mem_filter.mp hkey
    have hkeep : ∀ {α : Type} (map : KeyMap α), m.erased m.stateBits map key = map key := by
      intro α map
      refine if_neg fun h => ?_
      rw [h.2] at hcovered
      cases hcovered
    exact ⟨hmem, hkeep _, hkeep _, hkeep _⟩
  outputs key hkey := by
    have hkey' : key ∈ m.observedOutputs ++ m.allObservedOutputs.filter fun key =>
        !m.skipped key && (m.observedOutputExprByKey key).isSome := hkey
    rw [hobserved, List.nil_append] at hkey'
    obtain ⟨-, hcovered⟩ := List.mem_filter.mp hkey'
    refine if_neg fun h => ?_
    rw [h.2] at hcovered
    cases hcovered

/-- An output is covered when nothing in its way is marked. -/
theorem unmarked_of_covered (hm : m.Extracted) {info : KeyMap ConnectivitySkipInfo}
    (hinfo : ∀ key, info key ≠ none ↔ m.connectivitySkipInfoByKey key ≠ none ∨
      key ∈ m.stateBits ∧ m.StateCrosses key ∨ key ∈ m.allObservedOutputs ∧ m.OutputCrosses key)
    {key : SignalKey} {expr : BoolExpr} :
    (key ∈ m.allObservedOutputs ∧ m.observedOutputExprByKey key = some expr ∧ info key = none ∧
      ¬ ({ m with connectivitySkipInfoByKey := info }).OutputSkippedFrom key) ↔
    m.Unmarked key expr := by
  constructor
  · intro h
    obtain ⟨hkey, hexpr, hskip, hfrom⟩ := h
    have hclear := mt (hinfo key).mpr (not_not.mpr hskip)
    rw [not_or, not_or, not_ne_iff] at hclear
    refine ⟨hkey, hexpr, ⟨hclear.1, fun hcross => hclear.2.2 ⟨hkey, hcross⟩⟩,
      fun source hcone => ?_⟩
    have hsource : info source = none := by
      by_contra hmarked
      obtain ⟨first, hread, hpath⟩ := hcone
      exact hfrom ⟨expr, hexpr, first, hread, source, InCone.mem ⟨first, hread, hpath⟩, hmarked,
        hpath⟩
    have hclear' := mt (hinfo source).mpr (not_not.mpr hsource)
    rw [not_or, not_or, not_ne_iff] at hclear'
    exact ⟨hclear'.1, fun hcross => hclear'.2.1 ⟨hcone.mem, hcross⟩⟩
  · intro h
    have hstate := hm.outputs key h.observed
    refine ⟨h.observed, h.expressed, ?_, fun hfrom => ?_⟩
    · by_contra hmarked
      rcases (hinfo key).mp hmarked with hskip | ⟨hmem, -⟩ | ⟨-, hcross⟩
      · exact hskip h.output.1
      · exact hstate hmem
      · exact h.output.2 hcross
    · obtain ⟨expr', hexpr', first, hread, origin, horigin, hmarked, hpath⟩ := hfrom
      have hsame : expr' = expr := Option.some.inj (hexpr'.symm.trans h.expressed)
      rw [hsame] at hread
      obtain ⟨hskip, hcross⟩ := h.cone origin ⟨first, hread, hpath⟩
      rcases (hinfo origin).mp hmarked with hmarked | ⟨-, hcross'⟩ | ⟨hout, -⟩
      · exact hmarked hskip
      · exact hcross hcross'
      · exact hm.outputs origin hout horigin

theorem Restricts.readsState {covered : ExtractionModel} (h : Restricts m covered)
    {expr : BoolExpr} {source : SignalKey} :
    covered.ReadsState expr source ↔ source ∈ covered.stateBits ∧ m.ReadsState expr source := by
  constructor
  · intro hread
    obtain ⟨hmem, v, hvar, hsupport⟩ := hread
    obtain ⟨hmem', hsame, -⟩ := h.states source hmem
    exact ⟨hmem, hmem', v, hsame ▸ hvar, hsupport⟩
  · intro hread
    obtain ⟨hmem, -, v, hvar, hsupport⟩ := hread
    obtain ⟨-, hsame, -⟩ := h.states source hmem
    exact ⟨hmem, v, hsame.trans hvar, hsupport⟩

theorem Restricts.dependsOn {covered : ExtractionModel} (h : Restricts m covered)
    {key source : SignalKey} : covered.DependsOn key source ↔
      key ∈ covered.stateBits ∧ source ∈ covered.stateBits ∧ m.DependsOn key source := by
  constructor
  · intro hdepends
    obtain ⟨hmem, next, hnext, hread⟩ := hdepends
    obtain ⟨hmem', -, hsame, -⟩ := h.states key hmem
    obtain ⟨hsource, hread⟩ := h.readsState.mp hread
    exact ⟨hmem, hsource, hmem', next, hsame ▸ hnext, hread⟩
  · intro hdepends
    obtain ⟨hmem, hsource, -, next, hnext, hread⟩ := hdepends
    obtain ⟨-, -, hsame, -⟩ := h.states key hmem
    exact ⟨hmem, next, hsame.trans hnext, h.readsState.mpr ⟨hsource, hread⟩⟩

theorem Restricts.hasDomain {covered : ExtractionModel} (h : Restricts m covered)
    {key domain : SignalKey} (hkey : key ∈ covered.stateBits) :
    covered.HasDomain key domain ↔ m.HasDomain key domain := by
  unfold HasDomain
  rw [(h.states key hkey).2.2.2]

/-- The cone of a covered output is what it was. -/
theorem Restricts.inCone {covered : ExtractionModel} (h : Restricts m covered)
    (hpart : CoveredPart m covered) {key : SignalKey} (hkey : key ∈ covered.observedOutputs)
    {expr : BoolExpr} (hexpr : covered.observedOutputExprByKey key = some expr)
    {source : SignalKey} : covered.InCone expr source ↔ m.InCone expr source := by
  constructor
  · intro hcone
    obtain ⟨first, hread, hpath⟩ := hcone
    exact ⟨first, (h.readsState.mp hread).2,
      hpath.lift id fun _ _ hdepends => (h.dependsOn.mp hdepends).2.2⟩
  · intro hcone
    obtain ⟨first, hread, hpath⟩ := hcone
    have hfirst := (hpart.outputs_read key hkey expr hexpr first hread).1
    refine ⟨first, h.readsState.mpr ⟨hfirst, hread⟩, ?_⟩
    have hcovered : Relation.ReflTransGen covered.DependsOn first source ∧
        source ∈ covered.stateBits := by
      induction hpath with
      | refl => exact ⟨.refl, hfirst⟩
      | @tail mid last _ hdepends ih =>
        obtain ⟨hpath, hmid⟩ := ih
        obtain ⟨-, -, hsame, -⟩ := h.states mid hmid
        obtain ⟨hmem, next, hnext, hread⟩ := hdepends
        have hlast := (hpart.states_read mid hmid next (hsame.trans hnext) last hread).1
        exact ⟨hpath.tail (h.dependsOn.mpr ⟨hmid, hlast, hmem, next, hnext, hread⟩), hlast⟩
    exact hcovered.1

theorem Restricts.oneDomain {covered : ExtractionModel} (h : Restricts m covered)
    (hpart : CoveredPart m covered) {key : SignalKey} (hkey : key ∈ covered.observedOutputs)
    {expr : BoolExpr} (hexpr : covered.observedOutputExprByKey key = some expr) :
    covered.OneDomain expr ↔ m.OneDomain expr := by
  have hcone : ∀ source, covered.InCone expr source ↔ m.InCone expr source := fun _ =>
    h.inCone hpart hkey hexpr
  constructor
  · intro hone source source' domain domain' hsource hsource' hdomain hdomain'
    have hcovered := (hcone source).mpr hsource
    have hcovered' := (hcone source').mpr hsource'
    exact hone source source' domain domain' hcovered hcovered'
      ((h.hasDomain hcovered.mem).mpr hdomain) ((h.hasDomain hcovered'.mem).mpr hdomain')
  · intro hone source source' domain domain' hsource hsource' hdomain hdomain'
    exact hone source source' domain domain' ((hcone source).mp hsource)
      ((hcone source').mp hsource') ((h.hasDomain hsource.mem).mp hdomain)
      ((h.hasDomain hsource'.mem).mp hdomain')

/-- Extraction ends, and what is covered is what is unmarked. -/
theorem marked_coveredModel (hm : m.Extracted) (hobserved : m.observedOutputs = [])
    {stateSchedule outputSchedule : Schedule}
    (hstates : Scans stateSchedule m.stateBits.length)
    (houtputs : Scans outputSchedule m.allObservedOutputs.length) :
    ∃ covered, m.markMultiClockDomainConesAsSkipped.coveredModel stateSchedule outputSchedule =
        .ok covered ∧
      (DomainsCovered covered ↔ ∀ key expr, m.Unmarked key expr → m.BridgesKeepDomain expr) := by
  obtain ⟨info, hmark, hinfo⟩ := mark_ne_none hm.toWellFormed
  have hm' : ({ m with connectivitySkipInfoByKey := info }).Extracted :=
    ⟨⟨hm.nodup, hm.mapped, hm.distinct⟩, hm.named, hm.outputs⟩
  obtain ⟨w, hrun, hinv, hempty⟩ := propagate_spec hm' hstates houtputs
  refine ⟨_, by rw [hmark, coveredModel, hrun], ?_⟩
  have hpart := coveredPart_of_marks hm' hobserved hinv hempty
  have hrestricts : Restricts { m with connectivitySkipInfoByKey := info }
      ({ m with
        connectivitySkipInfoByKey := w.skipInfo }).partitionCoveredSignals.validateExtractedModel
      := by
    have h := restricts_partition (m := { m with connectivitySkipInfoByKey := w.skipInfo })
      hobserved
    exact ⟨h.states, h.outputs⟩
  constructor
  · intro hcovered key expr hunmarked
    obtain ⟨hkey, hexpr, hskip, hfrom⟩ := (unmarked_of_covered hm hinfo).mpr hunmarked
    have hkey' := (hpart.outputs key).mpr ⟨hkey, ⟨expr, hexpr⟩, hskip, hfrom⟩
    have hexpr' := (hrestricts.outputs key hkey').trans hexpr
    have hone := (hrestricts.oneDomain hpart hkey' hexpr').mp (hcovered key hkey' expr hexpr')
    exact hunmarked.seesOneDomain_iff.mp (oneDomain_iff.mp hone)
  · intro hbridges key hkey expr hexpr
    obtain ⟨hmem, -, hskip, hfrom⟩ := (hpart.outputs key).mp hkey
    have hexpr' := (hrestricts.outputs key hkey).symm.trans hexpr
    refine (hrestricts.oneDomain hpart hkey hexpr).mpr (oneDomain_iff.mpr ?_)
    have hunmarked := (unmarked_of_covered hm hinfo).mp ⟨hmem, hexpr', hskip, hfrom⟩
    exact hunmarked.seesOneDomain_iff.mpr (hbridges key expr hunmarked)

theorem Extracted.compose (hm : m.Extracted) : m.composeSameDomainPhaseTransitions.Extracted := by
  obtain ⟨done, -, heq⟩ := compose_eq hm.toWellFormed
  rw [heq]
  exact ⟨⟨hm.nodup, hm.mapped, hm.distinct⟩, hm.named, hm.outputs⟩

theorem compose_lists (hm : m.Extracted) :
    m.composeSameDomainPhaseTransitions.stateBits = m.stateBits ∧
    m.composeSameDomainPhaseTransitions.allObservedOutputs = m.allObservedOutputs ∧
    m.composeSameDomainPhaseTransitions.observedOutputs = m.observedOutputs := by
  obtain ⟨done, -, heq⟩ := compose_eq hm.toWellFormed
  rw [heq]
  exact ⟨rfl, rfl, rfl⟩

/-- Every covered output rests on one clock domain when no state without an event leads to
another domain than that of its reader; where no phases are composed, it does so exactly when
this holds of the outputs that nothing stops. -/
theorem checkedModel_domainsCovered (hm : m.Extracted) (hobserved : m.observedOutputs = [])
    {stateSchedule outputSchedule : Schedule}
    (hstates : Scans stateSchedule m.stateBits.length)
    (houtputs : Scans outputSchedule m.allObservedOutputs.length) :
    ∃ covered, m.checkedModel stateSchedule outputSchedule = .ok covered ∧
      (m.BridgesKept → DomainsCovered covered) ∧
      (m.PhasesApart → (DomainsCovered covered ↔
        ∀ key expr, m.Unmarked key expr → m.BridgesKeepDomain expr)) := by
  obtain ⟨hbits, hall, hcovered⟩ := compose_lists hm
  obtain ⟨covered, hrun, hiff⟩ := marked_coveredModel hm.compose (hcovered.trans hobserved)
    (hbits ▸ hstates) (hall ▸ houtputs)
  refine ⟨covered, hrun, fun hkept => hiff.mpr fun key expr hunmarked => ?_, fun hapart => ?_⟩
  · obtain ⟨done, -, heq⟩ := compose_eq hm.toWellFormed
    rw [heq] at hunmarked ⊢
    exact (hkept key hunmarked.observed expr hunmarked.expressed hunmarked.output.1).composed
      hm.toWellFormed
  · rw [hapart.compose_eq_self hm.toWellFormed] at hiff
    exact hiff

/-- State 2 has the clock 8, state 4 the clock 9; the memory cell 3, which has no event, takes
the value of state 4. The output reads state 2 and the cell. -/
def memoryBridge : ExtractionModel where
  stateBits := [([2], []), ([3], []), ([4], [])]
  allObservedOutputs := [([0], [])]
  inputVarByKey key :=
    if key = ([2], []) then some 2 else if key = ([3], []) then some 3
    else if key = ([4], []) then some 4 else none
  displayNameByKey _ := some "q"
  observedOutputExprByKey key :=
    if key = ([0], []) then some (.and (.var 2) (.var 3)) else none
  nextStateExprByStateKey key :=
    if key = ([2], []) then some (.var 5) else if key = ([3], []) then some (.var 4)
    else if key = ([4], []) then some (.var 6) else none
  clockEventByStateKey key :=
    if key = ([2], []) then some ⟨([8], []), .Pos, none⟩
    else if key = ([4], []) then some ⟨([9], []), .Pos, none⟩ else none
  connectivitySkipInfoByKey _ := none

theorem memoryBridge_extracted : memoryBridge.Extracted where
  nodup := by decide
  mapped key hkey := by
    simp only [memoryBridge, List.mem_cons, List.not_mem_nil, or_false] at hkey
    rcases hkey with rfl | rfl | rfl
    · exact ⟨2, rfl, by decide⟩
    · exact ⟨3, rfl, by decide⟩
    · exact ⟨4, rfl, by decide⟩
  distinct := by decide
  named _ _ := ⟨"q", rfl⟩
  outputs := by decide

/-- The output is covered, and its cone has states 2 and 4. -/
theorem checkedModel_memoryBridge :
    memoryBridge.Extracted ∧
      ∃ covered, memoryBridge.checkedModel [[0, 1, 2]] [[0]] = .ok covered ∧
        ¬ DomainsCovered covered := by
  refine ⟨memoryBridge_extracted, _, rfl, fun h => ?_⟩
  have hsame := h ([0], []) (by decide) (.and (.var 2) (.var 3)) rfl ([2], []) ([4], [])
    ([8], []) ([9], []) ⟨([2], []), ⟨by decide, 2, rfl, by decide⟩, .refl⟩
    ⟨([3], []), ⟨by decide, 3, rfl, by decide⟩,
      .single ⟨by decide, .var 4, rfl, by decide, 4, rfl, by decide⟩⟩
    ⟨_, rfl, rfl⟩ ⟨_, rfl, rfl⟩
  exact absurd hsame (by decide)

/-- States 2 and 6 have the clock 8, one on each edge, and state 4 the clock 9; the memory cell
3 takes the value of state 6, and state 2 reads it. -/
def twoClockBridge : ExtractionModel where
  stateBits := [([2], []), ([3], []), ([4], []), ([6], [])]
  allObservedOutputs := [([0], []), ([1], [])]
  inputVarByKey key :=
    if key = ([2], []) then some 2 else if key = ([3], []) then some 3
    else if key = ([4], []) then some 4 else if key = ([6], []) then some 6 else none
  displayNameByKey _ := some "q"
  observedOutputExprByKey key :=
    if key = ([0], []) then some (.and (.var 2) (.var 3))
    else if key = ([1], []) then some (.var 4) else none
  nextStateExprByStateKey key :=
    if key = ([2], []) then some (.and (.var 5) (.var 3))
    else if key = ([3], []) then some (.var 6)
    else if key = ([4], []) then some (.not (.var 4))
    else if key = ([6], []) then some (.var 2) else none
  clockEventByStateKey key :=
    if key = ([2], []) then some ⟨([8], []), .Pos, none⟩
    else if key = ([4], []) then some ⟨([9], []), .Pos, none⟩
    else if key = ([6], []) then some ⟨([8], []), .Neg, none⟩ else none
  connectivitySkipInfoByKey _ := none

theorem twoClockBridge_extracted : twoClockBridge.Extracted where
  nodup := by decide
  mapped key hkey := by
    simp only [twoClockBridge, List.mem_cons, List.not_mem_nil, or_false] at hkey
    rcases hkey with rfl | rfl | rfl | rfl
    · exact ⟨2, rfl, by decide⟩
    · exact ⟨3, rfl, by decide⟩
    · exact ⟨4, rfl, by decide⟩
    · exact ⟨6, rfl, by decide⟩
  distinct := by decide
  named _ _ := ⟨"q", rfl⟩
  outputs := by decide

/-- A variable that is read is the number of its state. -/
theorem twoClockBridge_reads {expr : BoolExpr} {source : SignalKey}
    (h : twoClockBridge.ReadsState expr source) :
    ∃ v ∈ expr.getSupportVars, source = ([v], []) := by
  obtain ⟨hmem, v, hvar, hv⟩ := h
  simp only [twoClockBridge, List.mem_cons, List.not_mem_nil, or_false] at hmem
  refine ⟨v, hv, ?_⟩
  rcases hmem with rfl | rfl | rfl | rfl <;> cases hvar <;> rfl

/-- State 4 is apart from the others. -/
theorem twoClockBridge_apart {key source : SignalKey} (h : twoClockBridge.DependsOn key source) :
    key = ([4], []) ↔ source = ([4], []) := by
  obtain ⟨hmem, next, hnext, hread⟩ := h
  obtain ⟨v, hv, rfl⟩ := twoClockBridge_reads hread
  clear hread
  simp only [twoClockBridge, List.mem_cons, List.not_mem_nil, or_false] at hmem
  rcases hmem with rfl | rfl | rfl | rfl <;> cases hnext <;> revert v <;> decide

theorem twoClockBridge_domain {key domain : SignalKey} (h : twoClockBridge.HasDomain key domain)
    (hkey : key ≠ ([4], [])) : domain = ([8], []) := by
  obtain ⟨event, hevent, rfl⟩ := h
  simp only [twoClockBridge, if_neg hkey] at hevent
  split at hevent
  · cases hevent
    rfl
  · split at hevent <;> cases hevent
    rfl

theorem twoClockBridge_shows {key domain : SignalKey} (h : twoClockBridge.ShowsDomain key domain)
    (hkey : key ≠ ([4], [])) : domain = ([8], []) := by
  obtain ⟨source, hpath, hdomain⟩ := h
  have hsource : source ≠ ([4], []) := by
    clear hdomain
    induction hpath with
    | refl => exact hkey
    | tail _ hstep ih => exact fun hsame => ih ((twoClockBridge_apart hstep.2).mpr hsame)
  exact twoClockBridge_domain hdomain hsource

theorem twoClockBridge_bridgesKept : twoClockBridge.BridgesKept := by
  have hclocked : ∀ source, twoClockBridge.clockEventByStateKey source = none →
      source ≠ ([4], []) := by
    rintro source hnone rfl
    cases hnone
  intro key hkey expr hexpr _
  refine ⟨fun key event source domain _ hevent hdepends hnone hshows => ?_,
    fun source domain domain' hread hnone hshows hsees => ?_⟩
  · have hsource := hclocked source hnone
    have hapart := (not_congr (twoClockBridge_apart hdepends)).mpr hsource
    rw [twoClockBridge_shows hshows hsource]
    exact (twoClockBridge_domain ⟨event, hevent, rfl⟩ hapart).symm
  · have hsource := hclocked source hnone
    obtain ⟨source', hread', hshows'⟩ := hsees
    rw [twoClockBridge_shows hshows hsource]
    refine (twoClockBridge_shows hshows' fun hfour => ?_).symm
    -- the output of state 4 reads nothing else
    obtain ⟨v, hv, rfl⟩ := twoClockBridge_reads hread
    obtain ⟨v', hv', rfl⟩ := twoClockBridge_reads hread'
    rcases List.mem_pair.mp hkey with rfl | rfl <;> cases hexpr
    · have hother : ∀ v ∈ ((BoolExpr.var 2).and (.var 3)).getSupportVars, ([v], []) ≠
          (([4], []) : SignalKey) := by decide
      exact hother v' hv' hfour
    · rw [Finset.mem_singleton.mp hv] at hsource
      exact hsource rfl

/-- Both clocks are kept apart through the memory cell and across the phases of clock 8. -/
theorem checkedModel_twoClockBridge :
    ∃ covered, twoClockBridge.checkedModel [[2, 0], [1, 3]] [[1], [0]] = .ok covered ∧
      DomainsCovered covered := by
  have hstates : Scans [[2, 0], [1, 3]] twoClockBridge.stateBits.length := by decide
  have houtputs : Scans [[1], [0]] twoClockBridge.allObservedOutputs.length := by decide
  obtain ⟨covered, hrun, hkept, -⟩ :=
    checkedModel_domainsCovered twoClockBridge_extracted rfl hstates houtputs
  exact ⟨covered, hrun, hkept twoClockBridge_bridgesKept⟩

end ExtractionModel
end KeplerFormal
