import KeplerFormal.L7Model.MemorySound

/-!
# The loop over the memories (`src/sec/model/SequentialDesignModel.cpp`)

* `memoryEntries`: the next-state expressions of one memory, as a list of what is stored.
* `buildStructuredMemoryTransitions_ok_iff`: the loop stores the entries of every memory.
* `MemoryInstance.Lowered`, `exists_lowered`: what a scanned memory has to do with its interface.
-/
namespace KeplerFormal

open Core

namespace ExtractionModel

/-! ## What is stored -/

/-- Entries are stored in order, where there is none yet. -/
def emplaceAll (m : ExtractionModel) (entries : List (SignalKey × BoolExpr)) : ExtractionModel :=
  entries.foldl (fun m entry => m.emplaceNext entry.1 entry.2) m

variable {m : ExtractionModel}

@[simp] theorem emplaceNext_inputVarByKey (key : SignalKey) (next : BoolExpr) :
    (m.emplaceNext key next).inputVarByKey = m.inputVarByKey := by
  unfold emplaceNext
  split <;> rfl

theorem emplaceNext_of_ne {key key' : SignalKey} (hne : key' ≠ key) (next : BoolExpr) :
    (m.emplaceNext key next).nextStateExprByStateKey key' = m.nextStateExprByStateKey key' := by
  unfold emplaceNext
  split
  · rfl
  · exact Function.update_of_ne hne _ _

theorem emplaceNext_self {key : SignalKey} (hfresh : m.nextStateExprByStateKey key = none)
    (next : BoolExpr) : (m.emplaceNext key next).nextStateExprByStateKey key = some next := by
  unfold emplaceNext
  rw [if_neg (by simp [hfresh])]
  exact Function.update_self _ _ _

@[simp] theorem emplaceAll_inputVarByKey (entries : List (SignalKey × BoolExpr)) :
    (m.emplaceAll entries).inputVarByKey = m.inputVarByKey := by
  induction entries generalizing m with
  | nil => rfl
  | cons entry entries ih =>
    show ((m.emplaceNext entry.1 entry.2).emplaceAll entries).inputVarByKey = _
    rw [ih, emplaceNext_inputVarByKey]

theorem emplaceAll_append (entries entries' : List (SignalKey × BoolExpr)) :
    m.emplaceAll (entries ++ entries') = (m.emplaceAll entries).emplaceAll entries' :=
  List.foldl_append

theorem emplaceAll_of_notMem {entries : List (SignalKey × BoolExpr)} {key : SignalKey}
    (hkey : key ∉ entries.map Prod.fst) :
    (m.emplaceAll entries).nextStateExprByStateKey key = m.nextStateExprByStateKey key := by
  induction entries generalizing m with
  | nil => rfl
  | cons entry entries ih =>
    rw [List.map_cons, List.mem_cons, not_or] at hkey
    show ((m.emplaceNext entry.1 entry.2).emplaceAll entries).nextStateExprByStateKey key = _
    rw [ih hkey.2, emplaceNext_of_ne hkey.1]

/-- Entries with fresh keys are all stored. -/
theorem emplaceAll_of_mem {entries : List (SignalKey × BoolExpr)}
    (hkeys : (entries.map Prod.fst).Nodup)
    (hfresh : ∀ entry ∈ entries, m.nextStateExprByStateKey entry.1 = none)
    {entry : SignalKey × BoolExpr} (hentry : entry ∈ entries) :
    (m.emplaceAll entries).nextStateExprByStateKey entry.1 = some entry.2 := by
  induction entries generalizing m with
  | nil => cases hentry
  | cons first entries ih =>
    rw [List.map_cons, List.nodup_cons] at hkeys
    show ((m.emplaceNext first.1 first.2).emplaceAll entries).nextStateExprByStateKey _ = _
    rcases List.mem_cons.mp hentry with rfl | hentry
    · rw [emplaceAll_of_notMem hkeys.1, emplaceNext_self (hfresh _ List.mem_cons_self)]
    · refine ih hkeys.2 (fun e he => ?_) hentry
      have hne : e.1 ≠ first.1 := by
        intro hsame
        exact hkeys.1 (hsame ▸ List.mem_map_of_mem he)
      rw [emplaceNext_of_ne hne, hfresh e (List.mem_cons_of_mem _ he)]

/-! ## One memory -/

/-- The table of the cells. -/
def cellTable (cellStates : List PendingMemoryCellState) (nexts : List BoolExpr) : CellTable :=
  (cellStates.map fun cell => (cell.cellIndex, cell.bitIndex)).zip nexts

/-- The expression of a read output. -/
def readEntry (m : ExtractionModel) (cells : CellTable) (depth : Nat)
    (reads : List (List BoolExpr)) (resetAsserted : Option BoolExpr)
    (readOutput : PendingMemoryReadOutput) : Except String BoolExpr :=
  match m.inputVarByKey readOutput.key with
  | none => .error ("Missing SEC variable for memory read-output state `" ++
      signalKeyToString readOutput.key ++ "`")
  | some _ =>
    match reads[readOutput.portIndex]? with
    | none => .error "index out of range"
    | some addressExprs =>
      readNextExpr cells depth addressExprs resetAsserted readOutput.bitIndex

/-- What one memory stores. -/
def memoryEntries (m : ExtractionModel) (pending : PendingMemoryInstance)
    (reads : List (List BoolExpr)) (writes : List WritePortExprs)
    (resetAsserted : Option BoolExpr) : Except String (List (SignalKey × BoolExpr)) := do
  let nexts ← pending.cellStates.mapM (m.cellNextExpr writes resetAsserted)
  let readNexts ← pending.readOutputs.mapM
    (m.readEntry (cellTable pending.cellStates nexts) pending.depth reads resetAsserted)
  return (pending.cellStates.map (·.key)).zip nexts ++ (pending.readOutputs.map (·.key)).zip readNexts

theorem foldlM_buildReadOutput {cells : CellTable} {depth : Nat} {reads : List (List BoolExpr)}
    {resetAsserted : Option BoolExpr} (readOutputs : List PendingMemoryReadOutput)
    {m' : ExtractionModel} :
    readOutputs.foldlM (fun m readOutput => m.buildReadOutput cells depth
      (reads.map fun read => (read, none)) resetAsserted readOutput) m = .ok m' ↔
    ∃ nexts, readOutputs.mapM (m.readEntry cells depth reads resetAsserted) = .ok nexts ∧
      m' = m.emplaceAll ((readOutputs.map (·.key)).zip nexts) := by
  induction readOutputs generalizing m with
  | nil =>
    rw [List.foldlM_nil, List.mapM_nil]
    constructor
    · intro h
      exact ⟨[], rfl, (Except.ok.inj h).symm⟩
    · intro h
      obtain ⟨nexts, -, rfl⟩ := h
      rfl
  | cons readOutput readOutputs ih =>
    have hstep : m.buildReadOutput cells depth (reads.map fun read => (read, none)) resetAsserted
        readOutput = (m.readEntry cells depth reads resetAsserted readOutput).map
          (m.emplaceNext readOutput.key) := by
      unfold buildReadOutput readEntry
      cases m.inputVarByKey readOutput.key with
      | none => rfl
      | some v =>
        dsimp only
        rw [List.getElem?_map]
        cases reads[readOutput.portIndex]? with
        | none => rfl
        | some read =>
          dsimp only [Option.map_some]
          cases readNextExpr cells depth read resetAsserted readOutput.bitIndex <;> rfl
    have hsame : ∀ next, (m.emplaceNext readOutput.key next).readEntry cells depth reads
        resetAsserted = m.readEntry cells depth reads resetAsserted := by
      intro next
      funext out
      unfold readEntry
      rw [emplaceNext_inputVarByKey]
    rw [List.foldlM_cons, bind_ok]
    constructor
    · intro h
      obtain ⟨first, hfirst, hrest⟩ := h
      rw [hstep] at hfirst
      cases hentry : m.readEntry cells depth reads resetAsserted readOutput with
      | error message =>
        rw [hentry] at hfirst
        cases hfirst
      | ok next =>
        rw [hentry] at hfirst
        obtain rfl := Except.ok.inj hfirst
        obtain ⟨nexts, hnexts, rfl⟩ := ih.mp hrest
        rw [hsame] at hnexts
        exact ⟨next :: nexts, mapM_cons_ok.mpr ⟨next, hentry, nexts, hnexts, rfl⟩, rfl⟩
    · intro h
      obtain ⟨all, hall, rfl⟩ := h
      obtain ⟨next, hentry, nexts, hnexts, rfl⟩ := mapM_cons_ok.mp hall
      refine ⟨m.emplaceNext readOutput.key next, by rw [hstep, hentry]; rfl, ih.mpr ⟨nexts, ?_, rfl⟩⟩
      rw [hsame]
      exact hnexts

theorem readEntry_emplaceAll (entries : List (SignalKey × BoolExpr)) (cells : CellTable)
    (depth : Nat) (reads : List (List BoolExpr)) (resetAsserted : Option BoolExpr) :
    (m.emplaceAll entries).readEntry cells depth reads resetAsserted =
      m.readEntry cells depth reads resetAsserted := by
  funext out
  unfold readEntry
  rw [emplaceAll_inputVarByKey]

/-- Everything that a memory depends on is there. -/
structure Prepared (ctx : MemoryContext) (pending : PendingMemoryInstance)
    (reads : List (List BoolExpr)) (writes : List WritePortExprs)
    (resetAsserted : Option BoolExpr) : Prop where
  reads : (pending.readPorts.map fun port => ctx.readAddressExprs port.addressTermIDs) =
    reads.map fun read => (read, none)
  writes : pending.writePorts.mapM ctx.writePortExprs = .ok writes
  reset : ∃ resetExpr, ctx.resetExpr pending = .ok resetExpr ∧
    resetAsserted = resetAssertedExpr pending.resetMode resetExpr

theorem buildStructuredMemoryTransition_ok_iff {ctx : MemoryContext}
    {pending : PendingMemoryInstance} {reads : List (List BoolExpr)}
    {writes : List WritePortExprs} {resetAsserted : Option BoolExpr}
    (h : Prepared ctx pending reads writes resetAsserted) {m' : ExtractionModel} :
    m.buildStructuredMemoryTransition ctx pending = .ok m' ↔
      ∃ entries, m.memoryEntries pending reads writes resetAsserted = .ok entries ∧
        m' = m.emplaceAll entries := by
  obtain ⟨resetExpr, hreset, rfl⟩ := h.reset
  have hreport : m.reportReads (reads.map fun read => (read, none)) = m := by
    unfold reportReads
    have hnone : (reads.map fun read => (read, (none : Option MemoryStop))).filterMap
        (fun read => read.2.bind MemoryStop.unsupportedReason) = [] := by
      rw [List.filterMap_map]
      exact List.filterMap_eq_nil_iff.mpr fun _ _ => rfl
    rw [hnone, List.append_nil]
  have hcells : ∀ nexts, (pending.cellStates.zip nexts).foldl
      (fun m cell => m.emplaceNext cell.1.key cell.2) m =
        m.emplaceAll ((pending.cellStates.map (·.key)).zip nexts) := by
    intro nexts
    rw [emplaceAll, List.zip_map_left, List.foldl_map]
    rfl
  unfold buildStructuredMemoryTransition memoryEntries
  simp only [h.reads, h.writes, hreset, hreport]
  rw [bind_ok]
  constructor
  · intro hok
    obtain ⟨nexts, hnexts, hok⟩ := hok
    rw [hcells] at hok
    obtain ⟨readNexts, hreads, rfl⟩ := (foldlM_buildReadOutput pending.readOutputs).mp hok
    rw [readEntry_emplaceAll] at hreads
    refine ⟨_, bind_ok.mpr ⟨nexts, hnexts, bind_ok.mpr ⟨readNexts, hreads, rfl⟩⟩, ?_⟩
    rw [emplaceAll_append]
  · intro hentries
    obtain ⟨entries, hentries, rfl⟩ := hentries
    obtain ⟨nexts, hnexts, hentries⟩ := bind_ok.mp hentries
    obtain ⟨readNexts, hreads, hentries⟩ := bind_ok.mp hentries
    obtain rfl := Except.ok.inj hentries
    refine ⟨nexts, hnexts, ?_⟩
    rw [hcells, emplaceAll_append]
    refine (foldlM_buildReadOutput pending.readOutputs).mpr ⟨readNexts, ?_, rfl⟩
    rw [readEntry_emplaceAll]
    exact hreads

/-! ## Every memory -/

/-- What one memory stores when everything that it depends on is there. -/
def storedEntries (m : ExtractionModel) (ctx : MemoryContext) (pending : PendingMemoryInstance) :
    Except String (List (SignalKey × BoolExpr)) :=
  match pending.writePorts.mapM ctx.writePortExprs, ctx.resetExpr pending with
  | .ok writes, .ok resetExpr =>
    m.memoryEntries pending
      (pending.readPorts.map fun port => (ctx.readAddressExprs port.addressTermIDs).1) writes
      (resetAssertedExpr pending.resetMode resetExpr)
  | _, _ => .ok []

theorem Prepared.storedEntries {ctx : MemoryContext} {pending : PendingMemoryInstance}
    {reads : List (List BoolExpr)} {writes : List WritePortExprs}
    {resetAsserted : Option BoolExpr} (h : Prepared ctx pending reads writes resetAsserted) :
    m.storedEntries ctx pending = m.memoryEntries pending reads writes resetAsserted := by
  obtain ⟨resetExpr, hreset, rfl⟩ := h.reset
  have hreads : (pending.readPorts.map fun port =>
      (ctx.readAddressExprs port.addressTermIDs).1) = reads := by
    have hfst := congrArg (List.map Prod.fst) h.reads
    rw [List.map_map, List.map_map] at hfst
    exact hfst.trans (List.map_id reads)
  unfold ExtractionModel.storedEntries
  simp only [h.writes, hreset, hreads]

/-- Only the variables of the model are looked at. -/
theorem storedEntries_emplaceAll (ctx : MemoryContext) (entries : List (SignalKey × BoolExpr)) :
    (m.emplaceAll entries).storedEntries ctx = m.storedEntries ctx := by
  have hcells : (m.emplaceAll entries).cellNextExpr = m.cellNextExpr := by
    funext writes resetAsserted cell
    unfold cellNextExpr
    rw [emplaceAll_inputVarByKey]
  funext pending
  unfold storedEntries memoryEntries
  simp only [hcells, readEntry_emplaceAll]

theorem buildStructuredMemoryTransitions_ok_iff {ctx : MemoryContext}
    {pendings : List PendingMemoryInstance}
    (h : ∀ pending ∈ pendings, ∃ reads writes resetAsserted,
      Prepared ctx pending reads writes resetAsserted) {m' : ExtractionModel} :
    m.buildStructuredMemoryTransitions ctx pendings = .ok m' ↔
      ∃ all, pendings.mapM (m.storedEntries ctx) = .ok all ∧ m' = m.emplaceAll all.flatten := by
  induction pendings generalizing m with
  | nil =>
    constructor
    · intro hok
      exact ⟨[], rfl, (Except.ok.inj hok).symm⟩
    · intro hall
      obtain ⟨all, hall, rfl⟩ := hall
      rw [List.mapM_nil] at hall
      obtain rfl := Except.ok.inj hall
      rfl
  | cons pending pendings ih =>
    obtain ⟨reads, writes, resetAsserted, hprepared⟩ := h pending List.mem_cons_self
    have hrest := fun p hp => h p (List.mem_cons_of_mem _ hp)
    unfold buildStructuredMemoryTransitions
    rw [List.foldlM_cons, bind_ok]
    constructor
    · intro hok
      obtain ⟨first, hfirst, hok⟩ := hok
      obtain ⟨entries, hentries, rfl⟩ := (buildStructuredMemoryTransition_ok_iff hprepared).mp hfirst
      obtain ⟨all, hall, rfl⟩ := (ih hrest).mp hok
      rw [storedEntries_emplaceAll] at hall
      refine ⟨entries :: all, mapM_cons_ok.mpr ⟨entries, ?_, all, hall, rfl⟩, ?_⟩
      · rw [hprepared.storedEntries, hentries]
      · rw [List.flatten_cons, emplaceAll_append]
    · intro hall
      obtain ⟨all, hall, rfl⟩ := hall
      obtain ⟨entries, hentries, rest, hrestAll, rfl⟩ := mapM_cons_ok.mp hall
      rw [hprepared.storedEntries] at hentries
      refine ⟨m.emplaceAll entries, (buildStructuredMemoryTransition_ok_iff hprepared).mpr
        ⟨entries, hentries, rfl⟩, (ih hrest).mpr ⟨rest, ?_, ?_⟩⟩
      · rw [storedEntries_emplaceAll]
        exact hrestAll
      · rw [List.flatten_cons, emplaceAll_append]

end ExtractionModel

/-! ## What a memory is lowered to -/

namespace MemoryInstance
variable {ctx : MemoryContext} {memory : MemoryInstance}

/-- The key of a bit of a read port. -/
def readKey (ctx : MemoryContext) (memory : MemoryInstance) (port : MemoryReadPort) (bit : Nat) :
    Option SignalKey :=
  ((port.data[bit]?).bind memory.termIDsByBitTerm).bind ctx.inputKeyByTerm

theorem appendReadPort_ok {portIndex : Nat} {port : MemoryReadPort}
    {result : PendingMemoryReadPort × List PendingMemoryReadOutput}
    (happend : ctx.appendReadPort memory portIndex port = .ok result) :
    port.address.mapM (memory.getRequiredInstanceTermID "read-address") =
        .ok result.1.addressTermIDs ∧
      (∀ out ∈ result.2, out.portIndex = portIndex ∧ out.bitIndex < port.data.length ∧
        memory.readKey ctx port out.bitIndex = some out.key) ∧
      ∀ bit < port.data.length, ∃ out ∈ result.2, out.bitIndex = bit := by
  unfold MemoryContext.appendReadPort at happend
  obtain ⟨address, haddress, happend⟩ := bind_ok.mp happend
  obtain ⟨outputs, houtputs, happend⟩ := bind_ok.mp happend
  obtain rfl := Except.ok.inj happend
  have hkey : ∀ bit term, port.data[bit]? = some term → ∃ output, outputs[bit]? = some output ∧
      memory.readKey ctx port bit = some output.2 := by
    intro bit term hterm
    obtain ⟨output, hok, houtput⟩ := mapM_getElem? houtputs hterm
    obtain ⟨termID, htermID, hok⟩ := bind_ok.mp hok
    refine ⟨output, houtput, ?_⟩
    rw [readKey, hterm, Option.bind_some, getRequired_eq_ok.mp htermID, Option.bind_some]
    cases hinput : ctx.inputKeyByTerm termID with
    | none =>
      rw [hinput] at hok
      cases hok
    | some key =>
      rw [hinput] at hok
      obtain rfl := Except.ok.inj hok
      rfl
  have hlength := mapM_length houtputs
  refine ⟨haddress, fun out hout => ?_, fun bit hbit => ?_⟩
  · obtain ⟨bit, hbit, rfl⟩ := List.mem_mapIdx.mp hout
    rw [hlength] at hbit
    obtain ⟨output, houtput, hreadKey⟩ := hkey bit _ (List.getElem?_eq_getElem hbit)
    refine ⟨rfl, hbit, ?_⟩
    rw [hreadKey]
    obtain ⟨_, hget⟩ := List.getElem?_eq_some_iff.mp houtput
    rw [hget]
  · have hbit' : bit < outputs.length := hlength ▸ hbit
    exact ⟨⟨outputs[bit].2, portIndex, bit⟩, List.mem_mapIdx.mpr ⟨bit, hbit', rfl⟩, rfl⟩

/-- The expressions of a supported port have the lengths of the interface. -/
theorem ShowsPort.shaped {exprs : WritePortExprs} {port : MemoryWritePort} {abits width : Nat}
    (h : ShowsPort ctx memory exprs port)
    (hsize : (port.address.length = abits ∧ port.data.length = width) ∧
      (port.mask = [] ∨ port.mask.length = width)) : exprs.Shaped abits width where
  address := h.address.trans hsize.1.1
  data := h.data.trans hsize.1.2
  mask := by
    rcases hsize.2 with hempty | hmask
    · left
      rw [← List.length_eq_zero_iff, h.mask, hempty]
      rfl
    · exact .inr (h.mask.trans hmask)

/-- What is known of a memory whose dependencies all have expressions. -/
structure Lowered (ctx : MemoryContext) (memory : MemoryInstance) (pending : PendingMemoryInstance)
    (reads : List (List BoolExpr)) (writes : List WritePortExprs)
    (resetExpr : Option BoolExpr) : Prop where
  prepared : ExtractionModel.Prepared ctx pending reads writes resetExpr
  depth : pending.depth = memory.interface.depth
  cells : pending.cellStates = memory.cellStates
  shaped : ∀ exprs ∈ writes, exprs.disabled = false → ∃ port ∈ memory.interface.writePorts,
    ShowsPort ctx memory exprs port ∧ exprs.Shaped memory.interface.abits memory.interface.width
  ports : ∀ σ content, (writes.map fun exprs => exprs.ramPort σ).foldl RamPort.commit content =
    (memory.interface.writePorts.map (memory.ramPort ctx σ)).foldl RamPort.commit content
  reset : ∀ σ, resetExpr.any (BoolExpr.eval σ) = memory.resetAsserted ctx σ
  addresses : ∀ (portIndex : Nat) port, memory.interface.readPorts[portIndex]? = some port →
    ∃ exprs, reads[portIndex]? = some exprs ∧ exprs.length = memory.interface.abits ∧
      ∀ σ, addressOf σ exprs = memory.addressValue ctx σ port.address
  outputs : ∀ out ∈ pending.readOutputs, ∃ port,
    memory.interface.readPorts[out.portIndex]? = some port ∧
      out.bitIndex < memory.interface.width ∧ memory.readKey ctx port out.bitIndex = some out.key
  outputs_all : ∀ (portIndex : Nat) port, memory.interface.readPorts[portIndex]? = some port →
    ∀ bit < memory.interface.width, ∃ out ∈ pending.readOutputs,
      out.portIndex = portIndex ∧ out.bitIndex = bit

theorem resetTermID_ok {reset? : Option Nat} (hreset : memory.resetTermID = .ok reset?)
    {pending : PendingMemoryInstance} (hpending : pending.resetTermID = reset?)
    (hmode : pending.resetMode = memory.interface.resetMode) (hexpr : memory.Expressed ctx) :
    ∃ resetExpr, ctx.resetExpr pending = .ok resetExpr ∧ ∀ σ,
      (resetAssertedExpr pending.resetMode resetExpr).any (BoolExpr.eval σ) =
        memory.resetAsserted ctx σ := by
  have hnone : ∀ mode, resetAssertedExpr mode none = none := by
    intro mode
    cases mode <;> rfl
  unfold resetTermID at hreset
  unfold MemoryContext.resetExpr resetAsserted
  rw [hpending, hmode]
  cases hterm : memory.interface.reset with
  | none =>
    rw [hterm] at hreset
    obtain rfl := Except.ok.inj hreset
    exact ⟨none, rfl, fun σ => by rw [hnone]; rfl⟩
  | some reset =>
    rw [hterm] at hreset
    by_cases huse : memory.interface.resetMode = .None
    · simp only [if_pos huse] at hreset
      obtain rfl := Except.ok.inj hreset
      exact ⟨none, rfl, fun σ => by simp [huse, hnone]⟩
    · simp only [if_neg huse] at hreset
      obtain ⟨termID, expr, hlookup, hmat⟩ := hexpr.reset reset hterm huse
      rw [getRequired_eq_ok.mpr hlookup] at hreset
      obtain rfl := Except.ok.inj hreset
      refine ⟨some expr, by simp only [hmat]; rfl, fun σ => ?_⟩
      have hvalue : memory.bitValue ctx σ reset = expr.eval σ := by
        rw [bitValue, hlookup, Option.any_some, MemoryContext.termValue, hmat]
      rw [Option.any_some, hvalue]
      cases hresetMode : memory.interface.resetMode <;> simp [resetAssertedExpr]

theorem exists_lowered (hsupported : memory.interface.supportsStructuredMemoryModel = true)
    (hexpr : memory.Expressed ctx) {pending : PendingMemoryInstance}
    (happend : ctx.appendPendingMemoryInstance memory = .ok pending) :
    ∃ reads writes resetExpr, Lowered ctx memory pending reads writes resetExpr := by
  unfold MemoryInterface.supportsStructuredMemoryModel at hsupported
  simp only [Bool.and_eq_true, List.all_eq_true, decide_eq_true_eq, Bool.or_eq_true] at hsupported
  obtain ⟨⟨-, hreadSize⟩, hwriteSize⟩ := hsupported
  unfold MemoryContext.appendPendingMemoryInstance at happend
  obtain ⟨reset?, hreset, happend⟩ := bind_ok.mp happend
  obtain ⟨readPorts, hreads, happend⟩ := bind_ok.mp happend
  obtain ⟨writePorts, hwrites, happend⟩ := bind_ok.mp happend
  have hpending := Except.ok.inj happend
  obtain ⟨writes, hwritesOk, hshown, hfold⟩ := writePorts_spec hexpr
    (List.Subset.refl memory.interface.writePorts) hwrites
  obtain ⟨resetExpr, hresetExpr, hresetEval⟩ := resetTermID_ok hreset
    (show pending.resetTermID = _ by rw [← hpending]) (by rw [← hpending]) hexpr
  have hport : ∀ (portIndex : Nat) port result, memory.interface.readPorts[portIndex]? = some port →
      ctx.appendReadPort memory portIndex port = .ok result → ∃ exprs,
        ctx.readAddressExprs result.1.addressTermIDs = (exprs, none) ∧
        exprs.length = port.address.length ∧
        ∀ σ, exprs.map (BoolExpr.eval σ) = port.address.map (memory.bitValue ctx σ) := by
    intro portIndex port result hport hresult
    obtain ⟨hterms, -, -⟩ := appendReadPort_ok hresult
    obtain ⟨exprs, hexprs, hlength, heval⟩ := materialize_mapM hterms
      (hexpr.reads port (List.mem_of_getElem? hport))
    exact ⟨exprs, readAddressExprs_spec hexprs, hlength, heval⟩
  have hfound : ∀ (portIndex : Nat) port, memory.interface.readPorts[portIndex]? = some port →
      ∃ result, ctx.appendReadPort memory portIndex port = .ok result ∧
        readPorts[portIndex]? = some result := by
    intro portIndex port hport
    refine mapM_getElem? hreads (a := (port, portIndex)) ?_
    rw [List.getElem?_zipIdx, hport]
    simp
  have hsource : ∀ result ∈ readPorts, ∃ portIndex port,
      memory.interface.readPorts[portIndex]? = some port ∧
        ctx.appendReadPort memory portIndex port = .ok result := by
    intro result hresult
    obtain ⟨⟨port, portIndex⟩, hmem, hok⟩ := (mem_mapM hreads result).mp hresult
    exact ⟨portIndex, port, List.mk_mem_zipIdx_iff_getElem?.mp hmem, hok⟩
  refine ⟨readPorts.map fun result => (ctx.readAddressExprs result.1.addressTermIDs).1, writes,
    resetAssertedExpr pending.resetMode resetExpr, ?_⟩
  constructor
  · refine ⟨?_, by rw [← hpending]; exact hwritesOk, resetExpr, hresetExpr, rfl⟩
    rw [← hpending]
    simp only [List.map_map]
    refine List.map_congr_left fun result hresult => ?_
    obtain ⟨portIndex, port, hget, hok⟩ := hsource result hresult
    obtain ⟨exprs, hexprs, -⟩ := hport portIndex port result hget hok
    simp [hexprs]
  · rw [← hpending]
  · rw [← hpending]
  · intro exprs hmem henabled
    obtain ⟨port, hportMem, hshows⟩ := hshown exprs hmem henabled
    exact ⟨port, hportMem, hshows, hshows.shaped (hwriteSize port hportMem).1⟩
  · exact hfold
  · exact hresetEval
  · intro portIndex port hget
    obtain ⟨result, hok, hresult⟩ := hfound portIndex port hget
    obtain ⟨exprs, hexprs, hlength, heval⟩ := hport portIndex port result hget hok
    refine ⟨exprs, ?_, hlength.trans (hreadSize port (List.mem_of_getElem? hget)).1, fun σ => ?_⟩
    · rw [List.getElem?_map, hresult, Option.map_some, hexprs]
    · rw [addressOf, heval, addressValue]
  · intro out hout
    rw [← hpending] at hout
    obtain ⟨result, hresult, hout⟩ := List.mem_flatMap.mp hout
    obtain ⟨portIndex, port, hget, hok⟩ := hsource result hresult
    obtain ⟨-, houts, -⟩ := appendReadPort_ok hok
    obtain ⟨hindex, hbit, hkey⟩ := houts out hout
    refine ⟨port, by rw [hindex, hget], ?_, hkey⟩
    rw [← (hreadSize port (List.mem_of_getElem? hget)).2]
    exact hbit
  · intro portIndex port hget bit hbit
    obtain ⟨result, hok, hresult⟩ := hfound portIndex port hget
    obtain ⟨-, houts, hall⟩ := appendReadPort_ok hok
    rw [← (hreadSize port (List.mem_of_getElem? hget)).2] at hbit
    obtain ⟨out, hout, hbitIndex⟩ := hall bit hbit
    refine ⟨out, ?_, (houts out hout).1, hbitIndex⟩
    rw [← hpending]
    exact List.mem_flatMap.mpr ⟨result, List.mem_of_getElem? hresult, hout⟩

end MemoryInstance
end KeplerFormal
