import KeplerFormal.L7Model.MemoryTransitions

/-!
# Structured memories and the reference memory (`src/sec/model/SequentialDesignModel.cpp`)

The reference is `Core.Memory.next`: the write ports of the interface in order, then the reset.

* `FollowsRam`: what the stored expressions of a memory have to do with the reference.
* `InRange`: no comparison beyond 64 bits, no read beyond the depth, and no address that a
  second cell has as well.
* `buildStructuredMemoryTransitions_followsRam_iff`: the first holds exactly under the second.
-/
namespace KeplerFormal

open Core

/-! ## Read chains -/

/-- Of a list of cells at most one is selected. -/
theorem foldl_select {α : Type} (address : Nat) {cells : List Nat} {selected : Nat → Prop}
    [DecidablePred selected] {value : Nat → α}
    (h : ∀ cell ∈ cells, selected cell ↔ address = cell) (first : α) :
    cells.foldl (fun old cell => if selected cell then value cell else old) first =
      if address ∈ cells then value address else first := by
  induction cells generalizing first with
  | nil => rfl
  | cons cell cells ih =>
    rw [List.foldl_cons, ih fun c hc => h c (List.mem_cons_of_mem _ hc)]
    by_cases hcell : address = cell
    · rw [if_pos ((h cell List.mem_cons_self).mpr hcell), if_pos (List.mem_cons.mpr (.inl hcell)),
        ← hcell, ite_self]
    · rw [if_neg (mt (h cell List.mem_cons_self).mp hcell)]
      exact if_congr (by simp [hcell]) rfl rfl

theorem foldlM_readChain {cells : CellTable} {addressExprs : List BoolExpr} {bit : Nat}
    {expr : Nat → BoolExpr} (indexes : List Nat)
    (hcells : ∀ cell ∈ indexes, cells.at cell bit = .ok (expr cell))
    (hsize : ∀ cell ∈ indexes, addressExprs.length ≤ 64) (first : BoolExpr) :
    ∃ next, (indexes.foldlM (fun next cellIndex => do
        let addressEquals ← buildAddressEqualsExpr addressExprs cellIndex
        let cell ← cells.at cellIndex bit
        return BoolExpr.makeIte addressEquals cell next) first) = .ok next ∧
      ∀ σ, next.eval σ = indexes.foldl (fun old cell =>
        if addressOf σ addressExprs = cell % 2 ^ addressExprs.length then (expr cell).eval σ
        else old) (first.eval σ) := by
  induction indexes generalizing first with
  | nil => exact ⟨first, rfl, fun σ => rfl⟩
  | cons cell indexes ih =>
    obtain ⟨equals, hequals, heval⟩ :=
      buildAddressEqualsExpr_spec (hsize cell List.mem_cons_self) cell
    obtain ⟨next, hnext, hnextEval⟩ := ih (fun c hc => hcells c (List.mem_cons_of_mem _ hc))
      (fun c hc => hsize c (List.mem_cons_of_mem _ hc))
      (BoolExpr.makeIte equals (expr cell) first)
    refine ⟨next, ?_, fun σ => ?_⟩
    · rw [List.foldlM_cons, bind_ok]
      refine ⟨BoolExpr.makeIte equals (expr cell) first, ?_, hnext⟩
      rw [hequals]
      show (_ >>= _) = _
      rw [hcells cell List.mem_cons_self]
      rfl
    · rw [hnextEval, List.foldl_cons, BoolExpr.eval_makeIte]
      exact congrArg (List.foldl _ · _) (if_congr (heval σ) rfl rfl)

/-- A read output: the last cell that has the address, else cell 0. -/
theorem readNextExpr_spec {cells : CellTable} {depth bit : Nat} {addressExprs : List BoolExpr}
    {expr : Nat → BoolExpr} (hdepth : 0 < depth)
    (hcells : ∀ cell < depth, cells.at cell bit = .ok (expr cell))
    (hsize : 1 < depth → addressExprs.length ≤ 64) (resetAsserted : Option BoolExpr) :
    ∃ next, readNextExpr cells depth addressExprs resetAsserted bit = .ok next ∧
      ∀ σ, next.eval σ = if resetAsserted.any (BoolExpr.eval σ) then false else
        (List.range' 1 (depth - 1)).foldl (fun old cell =>
          if addressOf σ addressExprs = cell % 2 ^ addressExprs.length then (expr cell).eval σ
          else old) ((expr 0).eval σ) := by
  have hindex : ∀ cell ∈ List.range' 1 (depth - 1), 0 < cell ∧ cell < depth := by
    intro cell hcell
    have := List.mem_range'_1.mp hcell
    omega
  obtain ⟨next, hnext, heval⟩ := foldlM_readChain (List.range' 1 (depth - 1))
    (fun cell hcell => hcells cell (hindex cell hcell).2)
    (fun cell hcell => hsize (by have := hindex cell hcell; omega)) (expr 0)
  refine ⟨withReset resetAsserted next, ?_, fun σ => by rw [eval_withReset, heval]⟩
  unfold readNextExpr
  exact bind_ok.mpr ⟨expr 0, hcells 0 hdepth, bind_ok.mpr ⟨next, hnext, rfl⟩⟩

/-! ## The reference -/

namespace MemoryInstance
variable (ctx : MemoryContext) (memory : MemoryInstance)

/-- The content of the memory: the values of the cells' variables. -/
def content (m : ExtractionModel) (σ : Valuation) : Memory := fun cell bit =>
  (m.inputVarByKey (memory.makeMemoryCellStateKey cell bit)).any σ

/-- The reference memory after one step. -/
def reference (m : ExtractionModel) (σ : Valuation) : Memory :=
  (memory.content m σ).next (memory.interface.writePorts.map (memory.ramPort ctx σ))
    (memory.resetAsserted ctx σ)

/-- The stored expressions do what the reference memory does. -/
structure FollowsRam (m built : ExtractionModel) (σ : Valuation) : Prop where
  /-- every cell takes the value of the reference -/
  cells : ∀ cell < memory.interface.depth, ∀ bit < memory.interface.width, ∃ next,
    built.nextStateExprByStateKey (memory.makeMemoryCellStateKey cell bit) = some next ∧
      next.eval σ = memory.reference ctx m σ cell bit
  /-- a bit is written only by ports that are enabled, at its cell and unmasked -/
  writes : ∀ port ∈ memory.interface.writePorts, ∀ pending exprs,
    ctx.appendWritePort memory port = .ok (some pending) → ctx.writePortExprs pending = .ok exprs →
      exprs.disabled = false →
      ∀ cell < memory.interface.depth, ∀ bit < memory.interface.width, ∃ condition,
        exprs.writeCondition cell bit = .ok condition ∧
          (condition.eval σ = true ↔ (memory.ramPort ctx σ port).Writes cell bit)
  /-- a read output takes the new value of the cell at its address -/
  reads : ∀ port ∈ memory.interface.readPorts, ∀ bit < memory.interface.width, ∃ key next,
    memory.readKey ctx port bit = some key ∧ built.nextStateExprByStateKey key = some next ∧
      (memory.addressValue ctx σ port.address < memory.interface.depth →
        next.eval σ = memory.reference ctx m σ (memory.addressValue ctx σ port.address) bit)
  /-- a cell is selected only by its own index -/
  selects : ∀ portIndex, ∀ port ∈ memory.interface.readPorts, 0 < memory.interface.width →
    ∀ result, ctx.appendReadPort memory portIndex port = .ok result →
      ∀ cell, 0 < cell → cell < memory.interface.depth → ∃ equals,
        buildAddressEqualsExpr (ctx.readAddressExprs result.1.addressTermIDs).1 cell = .ok equals ∧
          (equals.eval σ = true ↔ memory.addressValue ctx σ port.address = cell)
  /-- with an address beyond the cells, a read output follows none of them -/
  out_of_range : ∀ port ∈ memory.interface.readPorts, ∀ bit < memory.interface.width,
    memory.interface.depth ≤ memory.addressValue ctx σ port.address →
      ∀ key next, memory.readKey ctx port bit = some key →
        built.nextStateExprByStateKey key = some next → ∀ cell < memory.interface.depth,
          ¬ ∀ τ, memory.addressValue ctx τ port.address = memory.addressValue ctx σ port.address →
            (built.nextStateExprByStateKey (memory.makeMemoryCellStateKey cell bit)).map
              (BoolExpr.eval τ) = some (next.eval τ)

/-- Every comparison that is built is one of at most 64 bits, reads stay within the memory, and
no second cell has the address of a write or a read. -/
structure InRange (σ : Valuation) : Prop where
  write_size : ∀ port ∈ memory.interface.writePorts,
    (∀ term ∈ port.enables, memory.canAssert ctx term = true) →
      0 < memory.interface.depth → 0 < memory.interface.width → memory.interface.abits ≤ 64
  read_size : memory.interface.readPorts ≠ [] → 0 < memory.interface.width →
    1 < memory.interface.depth → memory.interface.abits ≤ 64
  writes : ∀ port ∈ memory.interface.writePorts, ∀ bit < memory.interface.width,
    (memory.ramPort ctx σ port).active = true → (memory.ramPort ctx σ port).mask bit = true →
      memory.interface.depth ≤
        memory.addressValue ctx σ port.address + 2 ^ memory.interface.abits
  reads : ∀ port ∈ memory.interface.readPorts, 0 < memory.interface.width →
    memory.addressValue ctx σ port.address < memory.interface.depth ∧
      memory.interface.depth ≤
        memory.addressValue ctx σ port.address + 2 ^ memory.interface.abits

variable {ctx memory}
variable {m : ExtractionModel} {pending : PendingMemoryInstance} {reads : List (List BoolExpr)}
  {writes : List WritePortExprs} {resetExpr : Option BoolExpr}

/-! ## Cells -/

theorem mem_cellStates {cell : PendingMemoryCellState} : cell ∈ memory.cellStates ↔
    ∃ c < memory.interface.depth, ∃ b < memory.interface.width, cell = memory.cellState c b := by
  unfold cellStates
  simp [List.mem_flatMap, List.mem_map, eq_comm]

/-- The reference, from the ports that are built. -/
theorem reference_eq (h : Lowered ctx memory pending reads writes resetExpr) (σ : Valuation)
    (cell bit : Nat) : memory.reference ctx m σ cell bit =
      if memory.resetAsserted ctx σ then false else
        writes.foldl (fun old exprs =>
          if (exprs.ramPort σ).Writes cell bit then (exprs.ramPort σ).data bit else old)
          (memory.content m σ cell bit) := by
  unfold reference Memory.next
  rw [← h.ports, foldl_commit_apply, List.foldl_map]

/-- The comparisons of the write ports are small enough. -/
def SmallWrites (memory : MemoryInstance) (writes : List WritePortExprs) : Prop :=
  ∀ exprs ∈ writes, exprs.disabled = false → 0 < memory.interface.depth →
    0 < memory.interface.width → memory.interface.abits ≤ 64

theorem cellNextExpr_spec (h : Lowered ctx memory pending reads writes resetExpr)
    (hsize : SmallWrites memory writes) {cell bit v : Nat} (hcell : cell < memory.interface.depth)
    (hbit : bit < memory.interface.width)
    (hvar : m.inputVarByKey (memory.makeMemoryCellStateKey cell bit) = some v) (h2 : 2 ≤ v) :
    ∃ next, m.cellNextExpr writes resetExpr (memory.cellState cell bit) = .ok next ∧
      ∀ σ, next.eval σ = if memory.resetAsserted ctx σ then false else
        writes.foldl (fun old exprs =>
          if exprs.Matches σ cell bit then (exprs.ramPort σ).data bit else old)
          (memory.content m σ cell bit) := by
  have hshapes : ∀ exprs ∈ writes, exprs.disabled = false →
      exprs.Shaped memory.interface.abits memory.interface.width ∧
        memory.interface.abits ≤ 64 := by
    intro exprs hexprs henabled
    obtain ⟨port, -, -, hshaped⟩ := h.shaped exprs hexprs henabled
    exact ⟨hshaped, hsize exprs hexprs henabled (Nat.zero_lt_of_lt hcell)
      (Nat.zero_lt_of_lt hbit)⟩
  obtain ⟨next, hnext, heval⟩ := WritePortExprs.foldlM_applyTo hshapes cell hbit (.var v)
  refine ⟨withReset resetExpr next, ?_, fun σ => ?_⟩
  · unfold ExtractionModel.cellNextExpr
    have hkey : (memory.cellState cell bit).key = memory.makeMemoryCellStateKey cell bit := rfl
    rw [hkey, hvar]
    exact bind_ok.mpr ⟨next, hnext, rfl⟩
  · have hcontent : memory.content m σ cell bit = σ v := by
      rw [content, hvar, Option.any_some]
    rw [eval_withReset, h.reset, heval, BoolExpr.eval_var σ h2, hcontent]

/-- The reset comes last. -/
theorem cellNextExpr_withReset {cell : PendingMemoryCellState} {next : BoolExpr}
    (hok : m.cellNextExpr writes resetExpr cell = .ok next) :
    ∃ value, next = withReset resetExpr value := by
  unfold ExtractionModel.cellNextExpr at hok
  split at hok
  · cases hok
  · obtain ⟨value, -, hok⟩ := bind_ok.mp hok
    exact ⟨value, (Except.ok.inj hok).symm⟩

/-- Where no second cell has the address of a write, a cell takes the value of the reference. -/
theorem cell_reference (h : Lowered ctx memory pending reads writes resetExpr) {σ : Valuation}
    (hrange : memory.InRange ctx σ) {cell bit : Nat} (hcell : cell < memory.interface.depth)
    (hbit : bit < memory.interface.width) :
    (if memory.resetAsserted ctx σ then false else
      writes.foldl (fun old exprs =>
        if exprs.Matches σ cell bit then (exprs.ramPort σ).data bit else old)
        (memory.content m σ cell bit)) = memory.reference ctx m σ cell bit := by
  rw [reference_eq h]
  refine if_congr Iff.rfl rfl (List.foldl_ext _ _ _ fun old exprs hexprs => ?_)
  refine if_congr ?_ rfl rfl
  cases hdisabled : exprs.disabled with
  | true =>
    have hactive : (exprs.ramPort σ).active = false := by
      simp [WritePortExprs.ramPort, hdisabled]
    unfold WritePortExprs.Matches RamPort.Writes
    rw [hactive]
    simp
  | false =>
    obtain ⟨port, hport, hshows, hshaped⟩ := h.shaped exprs hexprs hdisabled
    refine WritePortExprs.matches_iff_writes.mpr (fun hactive hmask => ?_) cell hcell
    rw [hshows.values] at hactive hmask ⊢
    rw [hshaped.address]
    exact hrange.writes port hport bit hbit hactive hmask

/-! ## Entries -/

/-- The keys of a memory: its cells, then its read outputs. -/
def memoryKeys (pending : PendingMemoryInstance) : List SignalKey :=
  pending.cellStates.map (·.key) ++ pending.readOutputs.map (·.key)

/-- The memory has variables for its keys, and those of the cells are no constants. -/
def HasVars (m : ExtractionModel) (pending : PendingMemoryInstance) : Prop :=
  ∀ key ∈ memoryKeys pending, ∃ v, m.inputVarByKey key = some v ∧ 2 ≤ v

/-- The table has every cell of the memory, and no other. -/
theorem cellTable_at {nexts : List BoolExpr} {f : PendingMemoryCellState → Except String BoolExpr}
    (hnexts : memory.cellStates.mapM f = .ok nexts) {cell bit : Nat}
    (hcell : cell < memory.interface.depth) (hbit : bit < memory.interface.width) :
    ∃ next, (ExtractionModel.cellTable memory.cellStates nexts).at cell bit = .ok next ∧
      f (memory.cellState cell bit) = .ok next := by
  obtain ⟨i, hi⟩ := List.mem_iff_getElem?.mp (mem_cellStates.mpr ⟨cell, hcell, bit, hbit, rfl⟩)
  obtain ⟨next, hok, hget⟩ := mapM_getElem? hnexts hi
  have hmem : ((cell, bit), next) ∈ ExtractionModel.cellTable memory.cellStates nexts := by
    refine List.mem_of_getElem? (i := i) ?_
    unfold ExtractionModel.cellTable
    rw [List.getElem?_zip_eq_some]
    exact ⟨by rw [List.getElem?_map, hi]; rfl, hget⟩
  unfold CellTable.at
  cases hlookup : (ExtractionModel.cellTable memory.cellStates nexts).lookup (cell, bit) with
  | none =>
    have hnone := List.lookup_eq_none_iff.mp hlookup _ hmem
    simp at hnone
  | some next' =>
    -- the entry that is found is of the same cell
    obtain ⟨l, r, hsplit, -⟩ := List.lookup_eq_some_iff.mp hlookup
    have hmem' : ((cell, bit), next') ∈ ExtractionModel.cellTable memory.cellStates nexts := by
      simp [hsplit]
    obtain ⟨j, hj⟩ := List.mem_iff_getElem?.mp hmem'
    unfold ExtractionModel.cellTable at hj
    rw [List.getElem?_zip_eq_some, List.getElem?_map, Option.map_eq_some_iff] at hj
    obtain ⟨⟨found, hfound, hindex⟩, hget'⟩ := hj
    obtain ⟨c, hc, b, hb, rfl⟩ := mem_cellStates.mp (List.mem_of_getElem? hfound)
    obtain ⟨hc', hb'⟩ := Prod.mk.inj hindex
    obtain ⟨next'', hok', hget''⟩ := mapM_getElem? hnexts hfound
    have hsame : next'' = next' := Option.some.inj (hget''.symm.trans hget')
    refine ⟨next', rfl, ?_⟩
    rw [← hsame, ← hok']
    have hc'' : c = cell := hc'
    have hb'' : b = bit := hb'
    rw [hc'', hb'']

/-- What a memory stores. -/
structure Entries (ctx : MemoryContext) (memory : MemoryInstance) (m : ExtractionModel)
    (pending : PendingMemoryInstance) (reads : List (List BoolExpr))
    (writes : List WritePortExprs) (resetExpr : Option BoolExpr)
    (entries : List (SignalKey × BoolExpr)) : Prop where
  keys : entries.map Prod.fst = memoryKeys pending
  cells : ∀ cell < memory.interface.depth, ∀ bit < memory.interface.width, ∃ next,
    m.cellNextExpr writes resetExpr (memory.cellState cell bit) = .ok next ∧
      (memory.makeMemoryCellStateKey cell bit, next) ∈ entries
  reads : ∀ out ∈ pending.readOutputs, ∃ table addressExprs next,
    reads[out.portIndex]? = some addressExprs ∧
      readNextExpr table memory.interface.depth addressExprs resetExpr out.bitIndex = .ok next ∧
      (out.key, next) ∈ entries ∧ 0 < memory.interface.depth ∧
      ∀ cell < memory.interface.depth, ∃ cellNext, table.at cell out.bitIndex = .ok cellNext ∧
        m.cellNextExpr writes resetExpr (memory.cellState cell out.bitIndex) = .ok cellNext

/-- An element and its result stand at the same place. -/
theorem mem_zip_of_mapM {α β γ : Type} {f : α → Except String β} (key : α → γ) {as : List α}
    {bs : List β} (h : as.mapM f = .ok bs) {a : α} (ha : a ∈ as) :
    ∃ b, f a = .ok b ∧ (key a, b) ∈ (as.map key).zip bs := by
  obtain ⟨i, hi⟩ := List.mem_iff_getElem?.mp ha
  obtain ⟨b, hb, hget⟩ := mapM_getElem? h hi
  refine ⟨b, hb, List.mem_of_getElem? (i := i) ?_⟩
  rw [List.getElem?_zip_eq_some]
  exact ⟨by rw [List.getElem?_map, hi]; rfl, hget⟩

theorem entries_of_ok (h : Lowered ctx memory pending reads writes resetExpr)
    {entries : List (SignalKey × BoolExpr)}
    (hentries : m.memoryEntries pending reads writes resetExpr = .ok entries) :
    Entries ctx memory m pending reads writes resetExpr entries := by
  obtain ⟨nexts, hnexts, hentries⟩ := bind_ok.mp hentries
  obtain ⟨readNexts, hreads, hentries⟩ := bind_ok.mp hentries
  obtain rfl := Except.ok.inj hentries
  constructor
  · rw [List.map_append, List.map_fst_zip, List.map_fst_zip]
    · rfl
    · rw [List.length_map, mapM_length hreads]
    · rw [List.length_map, mapM_length hnexts]
  · intro cell hcell bit hbit
    have hmem : memory.cellState cell bit ∈ pending.cellStates := by
      rw [h.cells]
      exact mem_cellStates.mpr ⟨cell, hcell, bit, hbit, rfl⟩
    obtain ⟨next, hok, hzip⟩ := mem_zip_of_mapM (fun c => c.key) hnexts hmem
    exact ⟨next, hok, List.mem_append_left _ hzip⟩
  · intro out hout
    obtain ⟨next, hok, hzip⟩ := mem_zip_of_mapM (fun out => out.key) hreads hout
    obtain ⟨port, -, hbit, -⟩ := h.outputs out hout
    unfold ExtractionModel.readEntry at hok
    split at hok
    · cases hok
    split at hok
    · cases hok
    rename_i addressExprs haddress
    rw [h.cells] at hnexts
    rw [h.cells, h.depth] at hok
    refine ⟨_, addressExprs, next, haddress, hok, List.mem_append_right _ hzip, ?_,
      fun cell hcell => ?_⟩
    · -- without a cell there is no cell 0
      by_contra hdepth
      have hnone : memory.cellStates = [] := by
        unfold cellStates
        rw [Nat.eq_zero_of_not_pos hdepth]
        rfl
      obtain ⟨first, hfirst, -⟩ := bind_ok.mp hok
      rw [hnone] at hfirst
      cases hfirst
    · exact cellTable_at hnexts hcell hbit

/-! ## In range -/

instance : Inhabited BoolExpr := ⟨.createFalse⟩

theorem InRange.smallWrites (h : Lowered ctx memory pending reads writes resetExpr) {σ : Valuation}
    (hrange : memory.InRange ctx σ) : SmallWrites memory writes := by
  intro exprs hexprs henabled hdepth hwidth
  obtain ⟨port, hport, hshows, -⟩ := h.shaped exprs hexprs henabled
  exact hrange.write_size port hport hshows.enabled hdepth hwidth

theorem exists_entries (h : Lowered ctx memory pending reads writes resetExpr)
    (hvars : HasVars m pending) {σ : Valuation} (hrange : memory.InRange ctx σ) :
    ∃ entries, m.memoryEntries pending reads writes resetExpr = .ok entries := by
  have hcellsOk : ∀ cell ∈ pending.cellStates,
      ∃ next, m.cellNextExpr writes resetExpr cell = .ok next := by
    intro cell hcell
    obtain ⟨v, hvar, h2⟩ := hvars cell.key (List.mem_append_left _ (List.mem_map_of_mem hcell))
    rw [h.cells] at hcell
    obtain ⟨c, hc, b, hb, rfl⟩ := mem_cellStates.mp hcell
    obtain ⟨next, hok, -⟩ := cellNextExpr_spec h (hrange.smallWrites h) hc hb hvar h2
    exact ⟨next, hok⟩
  obtain ⟨nexts, hnexts⟩ := mapM_ok hcellsOk
  have hreadsOk : ∀ out ∈ pending.readOutputs, ∃ next,
      m.readEntry (ExtractionModel.cellTable pending.cellStates nexts) pending.depth reads
        resetExpr out = .ok next := by
    intro out hout
    obtain ⟨v, hvar, -⟩ := hvars out.key (List.mem_append_right _ (List.mem_map_of_mem hout))
    obtain ⟨port, hport, hbit, -⟩ := h.outputs out hout
    obtain ⟨exprs, hexprs, hlength, -⟩ := h.addresses out.portIndex port hport
    have hmem := List.mem_of_getElem? hport
    obtain ⟨haddress, -⟩ := hrange.reads port hmem (Nat.zero_lt_of_lt hbit)
    rw [h.cells] at hnexts
    choose! expr hexpr using fun cell (hcell : cell < memory.interface.depth) =>
      cellTable_at hnexts hcell hbit
    obtain ⟨next, hok, -⟩ := readNextExpr_spec (Nat.zero_lt_of_lt haddress)
      (fun cell hcell => (hexpr cell hcell).1)
      (fun hdepth => hlength.trans_le (hrange.read_size (List.ne_nil_of_mem hmem)
        (Nat.zero_lt_of_lt hbit) hdepth)) resetExpr
    refine ⟨next, ?_⟩
    unfold ExtractionModel.readEntry
    rw [hvar, h.cells, h.depth]
    simp only [hexprs]
    exact hok
  obtain ⟨readNexts, hreads⟩ := mapM_ok hreadsOk
  exact ⟨_, bind_ok.mpr ⟨nexts, hnexts, bind_ok.mpr ⟨readNexts, hreads, rfl⟩⟩⟩

/-- A read output, over the cells that are stored. -/
theorem read_eval (h : Lowered ctx memory pending reads writes resetExpr)
    {entries : List (SignalKey × BoolExpr)}
    (hentries : Entries ctx memory m pending reads writes resetExpr entries)
    {out : PendingMemoryReadOutput} (hout : out ∈ pending.readOutputs) {port : MemoryReadPort}
    (hport : memory.interface.readPorts[out.portIndex]? = some port)
    (hsize : 1 < memory.interface.depth → memory.interface.abits ≤ 64) :
    0 < memory.interface.depth ∧ ∃ next, (out.key, next) ∈ entries ∧ ∃ expr : Nat → BoolExpr,
      (∀ cell < memory.interface.depth,
        m.cellNextExpr writes resetExpr (memory.cellState cell out.bitIndex) = .ok (expr cell)) ∧
      ∀ σ, memory.interface.depth ≤
          memory.addressValue ctx σ port.address + 2 ^ memory.interface.abits →
        next.eval σ = if memory.resetAsserted ctx σ then false else
          (expr (if memory.addressValue ctx σ port.address < memory.interface.depth then
            memory.addressValue ctx σ port.address else 0)).eval σ := by
  obtain ⟨table, addressExprs, next, haddress, hok, hmem, hdepth, hcells⟩ :=
    hentries.reads out hout
  obtain ⟨exprs, hexprs, hlength, haddressEval⟩ := h.addresses out.portIndex port hport
  obtain rfl : exprs = addressExprs := Option.some.inj (hexprs.symm.trans haddress)
  choose! expr hexpr using hcells
  obtain ⟨next', hok', heval⟩ := readNextExpr_spec hdepth (fun cell hcell => (hexpr cell hcell).1)
    (fun hd => hlength.trans_le (hsize hd)) resetExpr
  obtain rfl : next' = next := Except.ok.inj (hok'.symm.trans hok)
  refine ⟨hdepth, next', hmem, expr, fun cell hcell => (hexpr cell hcell).2, fun σ halias => ?_⟩
  have hlt := addressOf_lt σ exprs
  rw [hlength, haddressEval] at hlt
  rw [heval, h.reset]
  refine if_congr Iff.rfl rfl ?_
  rw [foldl_select (memory.addressValue ctx σ port.address) fun cell hcell => by
    have hindex := List.mem_range'_1.mp hcell
    rw [hlength, haddressEval]
    exact (mod_eq_iff_of_lt hlt).mpr halias cell (by omega)]
  by_cases hread : memory.addressValue ctx σ port.address < memory.interface.depth
  · rw [if_pos hread]
    split
    · rfl
    · rename_i hzero
      rw [List.mem_range'_1] at hzero
      have h0 : memory.addressValue ctx σ port.address = 0 := by omega
      rw [h0]
  · rw [if_neg hread, if_neg]
    rw [List.mem_range'_1]
    omega

/-- The expressions of a read address. -/
theorem readAddress_spec (hsupported : memory.interface.supportsStructuredMemoryModel = true)
    (hexpr : memory.Expressed ctx) {portIndex : Nat} {port : MemoryReadPort}
    (hport : port ∈ memory.interface.readPorts)
    {result : PendingMemoryReadPort × List PendingMemoryReadOutput}
    (hresult : ctx.appendReadPort memory portIndex port = .ok result) :
    (ctx.readAddressExprs result.1.addressTermIDs).1.length = memory.interface.abits ∧
      ∀ σ, addressOf σ (ctx.readAddressExprs result.1.addressTermIDs).1 =
        memory.addressValue ctx σ port.address := by
  obtain ⟨hterms, -, -⟩ := appendReadPort_ok hresult
  obtain ⟨exprs, hexprs, hlength, heval⟩ := materialize_mapM hterms (hexpr.reads port hport)
  have hsize : port.address.length = memory.interface.abits := by
    unfold MemoryInterface.supportsStructuredMemoryModel at hsupported
    simp only [Bool.and_eq_true, List.all_eq_true, decide_eq_true_eq] at hsupported
    exact (hsupported.1.2 port hport).1
  rw [readAddressExprs_spec hexprs]
  exact ⟨hlength.trans hsize, fun σ => by rw [addressOf, heval, addressValue]⟩

/-- The write conditions of an enabled port. -/
theorem writeSize (hsupported : memory.interface.supportsStructuredMemoryModel = true)
    (hexpr : memory.Expressed ctx) {port : MemoryWritePort}
    (hport : port ∈ memory.interface.writePorts) {pending : PendingMemoryWritePort}
    (happend : ctx.appendWritePort memory port = .ok (some pending)) {exprs : WritePortExprs}
    (hexprs : ctx.writePortExprs pending = .ok exprs) (henabled : exprs.disabled = false) :
    ShowsPort ctx memory exprs port ∧
      exprs.Shaped memory.interface.abits memory.interface.width := by
  unfold MemoryInterface.supportsStructuredMemoryModel at hsupported
  simp only [Bool.and_eq_true, List.all_eq_true, decide_eq_true_eq, Bool.or_eq_true] at hsupported
  obtain ⟨exprs', hok, -, hshows⟩ := writePortExprs_spec hexpr hport happend
  obtain rfl : exprs' = exprs := Except.ok.inj (hok.symm.trans hexprs)
  exact ⟨hshows henabled, (hshows henabled).shaped (hsupported.2 port hport).1⟩

/-- A port whose enables can all assert is built. -/
theorem exists_enabled (hexpr : memory.Expressed ctx) {port : MemoryWritePort}
    (hport : port ∈ memory.interface.writePorts)
    (hall : ∀ term ∈ port.enables, memory.canAssert ctx term = true)
    {pending? : Option PendingMemoryWritePort}
    (happend : ctx.appendWritePort memory port = .ok pending?) :
    ∃ pending exprs, pending? = some pending ∧ ctx.writePortExprs pending = .ok exprs ∧
      exprs.disabled = false := by
  have hcontra : (∃ term ∈ port.enables, memory.canAssert ctx term = false) → False := by
    intro h
    obtain ⟨term, hterm, hnot⟩ := h
    rw [hall term hterm] at hnot
    cases hnot
  cases pending? with
  | none => exact absurd (exists_not_canAssert happend) hcontra
  | some pending =>
    obtain ⟨exprs, hok, hdisabled, -⟩ := writePortExprs_spec hexpr hport happend
    refine ⟨pending, exprs, rfl, hok, ?_⟩
    cases hd : exprs.disabled with
    | false => rfl
    | true => exact absurd (hdisabled hd) hcontra

/-! ## One memory -/

theorem followsRam_of_inRange
    (hsupported : memory.interface.supportsStructuredMemoryModel = true)
    (hexpr : memory.Expressed ctx) (h : Lowered ctx memory pending reads writes resetExpr)
    (hvars : HasVars m pending) {entries : List (SignalKey × BoolExpr)}
    (hentries : Entries ctx memory m pending reads writes resetExpr entries)
    {built : ExtractionModel}
    (hbuilt : ∀ entry ∈ entries, built.nextStateExprByStateKey entry.1 = some entry.2)
    {σ : Valuation} (hrange : memory.InRange ctx σ) : memory.FollowsRam ctx m built σ := by
  have hcell : ∀ cell < memory.interface.depth, ∀ bit < memory.interface.width, ∀ next,
      m.cellNextExpr writes resetExpr (memory.cellState cell bit) = .ok next →
        next.eval σ = memory.reference ctx m σ cell bit := by
    intro cell hcell bit hbit next hok
    obtain ⟨v, hvar, h2⟩ := hvars (memory.makeMemoryCellStateKey cell bit)
      (List.mem_append_left _ (by
        rw [h.cells]
        exact List.mem_map_of_mem (f := fun cell => cell.key)
          (mem_cellStates.mpr ⟨cell, hcell, bit, hbit, rfl⟩)))
    obtain ⟨next', hok', heval⟩ := cellNextExpr_spec h (hrange.smallWrites h) hcell hbit hvar h2
    obtain rfl : next' = next := Except.ok.inj (hok'.symm.trans hok)
    rw [heval, cell_reference h hrange hcell hbit]
  have hsize : ∀ port ∈ memory.interface.readPorts, 0 < memory.interface.width →
      1 < memory.interface.depth → memory.interface.abits ≤ 64 := fun port hport =>
    hrange.read_size (List.ne_nil_of_mem hport)
  constructor
  · intro cell hc bit hbit
    obtain ⟨next, hok, hmem⟩ := hentries.cells cell hc bit hbit
    exact ⟨next, hbuilt _ hmem, hcell cell hc bit hbit next hok⟩
  · intro port hport pendingPort exprs happend hexprs henabled cell hc bit hbit
    obtain ⟨hshows, hshaped⟩ := writeSize hsupported hexpr hport happend hexprs henabled
    obtain ⟨condition, hcondition, heval⟩ := WritePortExprs.writeCondition_spec hshaped henabled
      (hrange.write_size port hport hshows.enabled (Nat.zero_lt_of_lt hc) (Nat.zero_lt_of_lt hbit))
      cell hbit
    refine ⟨condition, hcondition, ?_⟩
    rw [heval, ← hshows.values]
    refine WritePortExprs.matches_iff_writes.mpr (fun hactive hmask => ?_) cell hc
    rw [hshows.values] at hactive hmask ⊢
    rw [hshaped.address]
    exact hrange.writes port hport bit hbit hactive hmask
  · intro port hport bit hbit
    obtain ⟨portIndex, hget⟩ := List.mem_iff_getElem?.mp hport
    obtain ⟨out, hout, rfl, rfl⟩ := h.outputs_all portIndex port hget bit hbit
    obtain ⟨port', hget', -, hkey⟩ := h.outputs out hout
    obtain rfl : port' = port := Option.some.inj (hget'.symm.trans hget)
    obtain ⟨-, next, hmem, expr, hexprs, heval⟩ := read_eval h hentries hout hget
      (hsize port' hport (Nat.zero_lt_of_lt hbit))
    refine ⟨out.key, next, hkey, hbuilt _ hmem, fun hread => ?_⟩
    rw [heval σ (hrange.reads port' hport (Nat.zero_lt_of_lt hbit)).2, if_pos hread,
      hcell _ hread _ hbit _ (hexprs _ hread)]
    -- the reference is 0 under the reset
    unfold reference Memory.next
    split <;> rfl
  · intro portIndex port hport hwidth result hresult cell hpos hc
    obtain ⟨hlength, haddress⟩ := readAddress_spec hsupported hexpr hport hresult
    obtain ⟨equals, hequals, heval⟩ := buildAddressEqualsExpr_spec
      (hlength.trans_le (hsize port hport hwidth (by omega))) cell
    refine ⟨equals, hequals, ?_⟩
    have hlt := addressOf_lt σ (ctx.readAddressExprs result.1.addressTermIDs).1
    rw [heval, hlength, haddress]
    rw [hlength, haddress] at hlt
    exact (mod_eq_iff_of_lt hlt).mpr (hrange.reads port hport hwidth).2 cell hc
  · intro port hport bit hbit hout
    exact absurd (hrange.reads port hport (Nat.zero_lt_of_lt hbit)).1 (not_lt.mpr hout)

/-- The ports of a scanned memory. -/
theorem ports_of_append (happend : ctx.appendPendingMemoryInstance memory = .ok pending) :
    (∀ port ∈ memory.interface.writePorts, ∃ pending?,
      ctx.appendWritePort memory port = .ok pending?) ∧
    ∀ (portIndex : Nat) port, memory.interface.readPorts[portIndex]? = some port →
      ∃ result, ctx.appendReadPort memory portIndex port = .ok result := by
  unfold MemoryContext.appendPendingMemoryInstance at happend
  obtain ⟨reset?, -, happend⟩ := bind_ok.mp happend
  obtain ⟨readPorts, hreads, happend⟩ := bind_ok.mp happend
  obtain ⟨writePorts, hwrites, -⟩ := bind_ok.mp happend
  refine ⟨fun port hport => ?_, fun portIndex port hport => ?_⟩
  · obtain ⟨i, hi⟩ := List.mem_iff_getElem?.mp hport
    obtain ⟨pending?, hok, -⟩ := mapM_getElem? hwrites hi
    exact ⟨pending?, hok⟩
  · obtain ⟨result, hok, -⟩ := mapM_getElem? hreads (i := portIndex) (a := (port, portIndex)) (by
      rw [List.getElem?_zipIdx, hport]
      simp)
    exact ⟨result, hok⟩

theorem size_of_buildAddressEqualsExpr {addressBits : List BoolExpr} {n : Nat} {equals : BoolExpr}
    (hequals : buildAddressEqualsExpr addressBits n = .ok equals) : addressBits.length ≤ 64 := by
  unfold buildAddressEqualsExpr at hequals
  split at hequals
  · cases hequals
  · omega

theorem inRange_of_followsRam
    (hsupported : memory.interface.supportsStructuredMemoryModel = true)
    (hexpr : memory.Expressed ctx) (happend : ctx.appendPendingMemoryInstance memory = .ok pending)
    (h : Lowered ctx memory pending reads writes resetExpr)
    {entries : List (SignalKey × BoolExpr)}
    (hentries : Entries ctx memory m pending reads writes resetExpr entries)
    {built : ExtractionModel}
    (hbuilt : ∀ entry ∈ entries, built.nextStateExprByStateKey entry.1 = some entry.2)
    {σ : Valuation} (hfollows : memory.FollowsRam ctx m built σ) : memory.InRange ctx σ := by
  obtain ⟨hwritePorts, hreadPorts⟩ := ports_of_append happend
  have hreadSize : memory.interface.readPorts ≠ [] → 0 < memory.interface.width →
      1 < memory.interface.depth → memory.interface.abits ≤ 64 := by
    intro hne hwidth hdepth
    obtain ⟨port, hport⟩ := List.exists_mem_of_ne_nil _ hne
    obtain ⟨portIndex, hget⟩ := List.mem_iff_getElem?.mp hport
    obtain ⟨result, hresult⟩ := hreadPorts portIndex port hget
    obtain ⟨hlength, -⟩ := readAddress_spec hsupported hexpr hport hresult
    obtain ⟨equals, hequals, -⟩ := hfollows.selects portIndex port hport hwidth result hresult 1
      Nat.one_pos hdepth
    exact hlength ▸ size_of_buildAddressEqualsExpr hequals
  -- the write conditions of an enabled port
  have hwrites : ∀ port ∈ memory.interface.writePorts,
      (∀ term ∈ port.enables, memory.canAssert ctx term = true) →
        ∀ bit < memory.interface.width, 0 < memory.interface.depth →
          memory.interface.abits ≤ 64 ∧ ((memory.ramPort ctx σ port).active = true →
            (memory.ramPort ctx σ port).mask bit = true → memory.interface.depth ≤
              memory.addressValue ctx σ port.address + 2 ^ memory.interface.abits) := by
    intro port hport hall bit hbit hdepth
    obtain ⟨pending?, hok⟩ := hwritePorts port hport
    obtain ⟨pendingPort, exprs, rfl, hexprs, henabled⟩ := exists_enabled hexpr hport hall hok
    obtain ⟨hshows, hshaped⟩ := writeSize hsupported hexpr hport hok hexprs henabled
    have hconditions := hfollows.writes port hport pendingPort exprs hok hexprs henabled
    have hsize : memory.interface.abits ≤ 64 := by
      obtain ⟨condition, hcondition, -⟩ := hconditions 0 hdepth bit hbit
      obtain ⟨equals, hequals, -⟩ := bind_ok.mp hcondition
      exact hshaped.address ▸ size_of_buildAddressEqualsExpr hequals
    refine ⟨hsize, ?_⟩
    have hiff := @WritePortExprs.matches_iff_writes exprs σ memory.interface.depth bit
    rw [hshaped.address, hshows.values] at hiff
    refine hiff.mp fun cell hcell => ?_
    obtain ⟨condition, hcondition, heval⟩ := hconditions cell hcell bit hbit
    obtain ⟨condition', hcondition', heval'⟩ :=
      WritePortExprs.writeCondition_spec hshaped henabled hsize cell hbit
    obtain rfl : condition' = condition := Except.ok.inj (hcondition'.symm.trans hcondition)
    exact (heval' σ).symm.trans heval
  constructor
  · intro port hport hall hdepth hwidth
    exact (hwrites port hport hall 0 hwidth hdepth).1
  · exact hreadSize
  · intro port hport bit hbit hactive hmask
    rcases Nat.eq_zero_or_pos memory.interface.depth with hzero | hdepth
    · rw [hzero]
      exact Nat.zero_le _
    · refine (hwrites port hport (fun term hterm => ?_) bit hbit hdepth).2 hactive hmask
      have hterm' := List.all_eq_true.mp hactive term hterm
      rw [Bool.and_eq_true] at hterm'
      exact hterm'.1
  · intro port hport hwidth
    obtain ⟨portIndex, hget⟩ := List.mem_iff_getElem?.mp hport
    obtain ⟨out, hout, rfl, hbitIndex⟩ := h.outputs_all portIndex port hget 0 hwidth
    obtain ⟨port', hget', hbit, hkey⟩ := h.outputs out hout
    obtain rfl : port' = port := Option.some.inj (hget'.symm.trans hget)
    obtain ⟨hdepth, next, hmem, expr, hexprs, heval⟩ := read_eval h hentries hout hget
      (hreadSize (List.ne_nil_of_mem hport) hwidth)
    have halias : memory.interface.depth ≤
        memory.addressValue ctx σ port'.address + 2 ^ memory.interface.abits := by
      obtain ⟨result, hresult⟩ := hreadPorts _ port' hget
      obtain ⟨hlength, haddress⟩ := readAddress_spec hsupported hexpr hport hresult
      have hlt := addressOf_lt σ (ctx.readAddressExprs result.1.addressTermIDs).1
      rw [hlength, haddress] at hlt
      refine (mod_eq_iff_of_lt hlt).mp fun cell hcell => ?_
      rcases Nat.eq_zero_or_pos cell with rfl | hpos
      · rw [Nat.zero_mod]
      · obtain ⟨equals, hequals, hiff⟩ := hfollows.selects _ port' hport hwidth result hresult cell
          hpos hcell
        obtain ⟨equals', hequals', hiff'⟩ :=
          buildAddressEqualsExpr_spec (size_of_buildAddressEqualsExpr hequals) cell
        obtain rfl : equals' = equals := Except.ok.inj (hequals'.symm.trans hequals)
        rw [← hlength, ← haddress, ← hiff', hiff, haddress]
    refine ⟨?_, halias⟩
    by_contra hread
    -- beyond the cells, the output follows cell 0
    refine hfollows.out_of_range port' hport out.bitIndex hbit (not_lt.mp hread) out.key next hkey
      (hbuilt _ hmem) 0 hdepth fun τ hsame => ?_
    obtain ⟨first, hfirst, hfirstMem⟩ := hentries.cells 0 hdepth out.bitIndex hbit
    have hexpr0 : expr 0 = first := Except.ok.inj ((hexprs 0 hdepth).symm.trans hfirst)
    rw [hbuilt _ hfirstMem, Option.map_some, heval τ (hsame ▸ halias), hsame, if_neg hread, hexpr0]
    obtain ⟨value, rfl⟩ := cellNextExpr_withReset hfirst
    rw [eval_withReset, h.reset]
    split <;> rfl

end MemoryInstance

/-! ## All memories -/

namespace ExtractionModel
open MemoryInstance

variable {ctx : MemoryContext} {m : ExtractionModel} {memories : List MemoryInstance}
  {pendings : List PendingMemoryInstance}

/-- The supported memories of a design, scanned; their keys are new and have variables. -/
structure Scanned (ctx : MemoryContext) (m : ExtractionModel) (memories : List MemoryInstance)
    (pendings : List PendingMemoryInstance) : Prop where
  supported : ∀ memory ∈ memories, memory.interface.supportsStructuredMemoryModel = true
  expressed : ∀ memory ∈ memories, memory.Expressed ctx
  appended : memories.mapM ctx.appendPendingMemoryInstance = .ok pendings
  nodup : (pendings.flatMap memoryKeys).Nodup
  fresh : ∀ key ∈ pendings.flatMap memoryKeys, m.nextStateExprByStateKey key = none
  vars : ∀ pending ∈ pendings, HasVars m pending

theorem Scanned.lowered (h : Scanned ctx m memories pendings) {pending : PendingMemoryInstance}
    (hpending : pending ∈ pendings) : ∃ memory ∈ memories, ∃ reads writes resetExpr,
      Lowered ctx memory pending reads writes resetExpr := by
  obtain ⟨memory, hmemory, hok⟩ := (mem_mapM h.appended pending).mp hpending
  exact ⟨memory, hmemory, exists_lowered (h.supported memory hmemory) (h.expressed memory hmemory)
    hok⟩

theorem Scanned.prepared (h : Scanned ctx m memories pendings) :
    ∀ pending ∈ pendings, ∃ reads writes resetExpr, Prepared ctx pending reads writes resetExpr := by
  intro pending hpending
  obtain ⟨memory, -, reads, writes, resetExpr, hlowered⟩ := h.lowered hpending
  exact ⟨reads, writes, resetExpr, hlowered.prepared⟩

/-- Every memory's entries are stored. -/
theorem Scanned.stored (h : Scanned ctx m memories pendings)
    {all : List (List (SignalKey × BoolExpr))}
    (hall : pendings.mapM (m.storedEntries ctx) = .ok all) {memory : MemoryInstance}
    (hmemory : memory ∈ memories) :
    ∃ pending reads writes resetExpr entries,
      ctx.appendPendingMemoryInstance memory = .ok pending ∧ pending ∈ pendings ∧
      Lowered ctx memory pending reads writes resetExpr ∧
      Entries ctx memory m pending reads writes resetExpr entries ∧
      ∀ entry ∈ entries,
        (m.emplaceAll all.flatten).nextStateExprByStateKey entry.1 = some entry.2 := by
  obtain ⟨i, hi⟩ := List.mem_iff_getElem?.mp hmemory
  obtain ⟨pending, hok, hpending⟩ := mapM_getElem? h.appended hi
  obtain ⟨entries, hentries, hget⟩ := mapM_getElem? hall hpending
  obtain ⟨reads, writes, resetExpr, hlowered⟩ :=
    exists_lowered (h.supported memory hmemory) (h.expressed memory hmemory) hok
  rw [hlowered.prepared.storedEntries] at hentries
  have hkeys : all.flatten.map Prod.fst = pendings.flatMap memoryKeys := by
    have hmap := mapM_map_eq (g := List.map Prod.fst) (k := memoryKeys) hall
      fun pending hpending entries hentries => by
        obtain ⟨memory, -, reads, writes, resetExpr, hlowered⟩ := h.lowered hpending
        rw [hlowered.prepared.storedEntries] at hentries
        exact (entries_of_ok hlowered hentries).keys
    rw [List.map_flatten, hmap, List.flatMap_def]
  refine ⟨pending, reads, writes, resetExpr, entries, hok, List.mem_of_getElem? hpending, hlowered,
    entries_of_ok hlowered hentries, fun entry hentry => ?_⟩
  refine emplaceAll_of_mem (hkeys ▸ h.nodup) (fun e he => h.fresh e.1 ?_)
    (List.mem_flatten.mpr ⟨entries, List.mem_of_getElem? hget, hentry⟩)
  rw [← hkeys]
  exact List.mem_map_of_mem he

/-- A memory that follows the reference is in range. -/
theorem Scanned.inRange (h : Scanned ctx m memories pendings) {built : ExtractionModel}
    (hbuilt : m.buildStructuredMemoryTransitions ctx pendings = .ok built) {memory : MemoryInstance}
    (hmemory : memory ∈ memories) {σ : Valuation} (hfollows : memory.FollowsRam ctx m built σ) :
    memory.InRange ctx σ := by
  obtain ⟨all, hall, rfl⟩ := (buildStructuredMemoryTransitions_ok_iff h.prepared).mp hbuilt
  obtain ⟨pending, reads, writes, resetExpr, entries, hok, -, hlowered, hentries, hstored⟩ :=
    h.stored hall hmemory
  exact inRange_of_followsRam (h.supported memory hmemory) (h.expressed memory hmemory) hok
    hlowered hentries hstored hfollows

/-- The memories are built and follow the reference under an assignment exactly when it is in
range for all of them. -/
theorem buildStructuredMemoryTransitions_followsRam_iff (h : Scanned ctx m memories pendings)
    (σ : Valuation) :
    (∃ built, m.buildStructuredMemoryTransitions ctx pendings = .ok built ∧
      ∀ memory ∈ memories, memory.FollowsRam ctx m built σ) ↔
    ∀ memory ∈ memories, memory.InRange ctx σ := by
  constructor
  · intro hbuilt memory hmemory
    obtain ⟨built, hbuilt, hfollows⟩ := hbuilt
    exact h.inRange hbuilt hmemory (hfollows memory hmemory)
  · intro hrange
    have hok : ∀ pending ∈ pendings, ∃ entries, m.storedEntries ctx pending = .ok entries := by
      intro pending hpending
      obtain ⟨memory, hmemory, reads, writes, resetExpr, hlowered⟩ := h.lowered hpending
      rw [hlowered.prepared.storedEntries]
      exact exists_entries hlowered (h.vars pending hpending) (hrange memory hmemory)
    obtain ⟨all, hall⟩ := mapM_ok hok
    refine ⟨m.emplaceAll all.flatten,
      (buildStructuredMemoryTransitions_ok_iff h.prepared).mpr ⟨all, hall, rfl⟩,
      fun memory hmemory => ?_⟩
    obtain ⟨pending, reads, writes, resetExpr, entries, -, hpending, hlowered, hentries, hstored⟩ :=
      h.stored hall hmemory
    exact followsRam_of_inRange (h.supported memory hmemory) (h.expressed memory hmemory) hlowered
      (h.vars pending hpending) hentries hstored (hrange memory hmemory)

/-! ## A memory of three cells -/

/-- Terminals 20, 21 and 23 to 26 are driven by variables 10, 11 and 13 to 16. -/
def triplexContext : MemoryContext where
  isConstantZeroTerm _ := false
  isNoDriverTerm _ := false
  displayName _ := ""
  inputKeyByTerm termID := if termID = 22 then some ([9], []) else none
  outputExprByTerm termID := if termID = 22 then none else some (.var (termID - 10))
  skippedOutputsByTerm _ := none
  buildObservedExprForTerm _ := .unsupported ""

/-- Three cells of one bit; the read port has the address 20, 21 and the data 22, the write port
the address 23, 24, the data 25 and the enable 26. -/
def triplexMemory : MemoryInstance where
  path := [7]
  fullPath := "top.mem"
  interface :=
    { isValid := true, width := 1, depth := 3, abits := 2, resetMode := .None, reset := none
      readPorts := [⟨[20, 21], [22]⟩], writePorts := [⟨[23, 24], [25], [], [26], []⟩] }
  termIDsByBitTerm term := some term

def triplexPending : PendingMemoryInstance where
  width := 1
  depth := 3
  abits := 2
  resetMode := .None
  resetTermID := none
  readPorts := [⟨[20, 21], [22]⟩]
  writePorts := [⟨[23, 24], [25], [], [26], []⟩]
  cellStates := triplexMemory.cellStates
  readOutputs := [⟨([9], []), 0, 0⟩]

/-- The cells have the variables 2, 3 and 4, the read output has 5. -/
def triplexModel : ExtractionModel where
  stateBits := []
  allObservedOutputs := []
  inputVarByKey key :=
    if key = ([7, 0], [0, 0]) then some 2 else if key = ([7, 0], [1, 0]) then some 3
    else if key = ([7, 0], [2, 0]) then some 4 else if key = ([9], []) then some 5 else none
  displayNameByKey _ := none
  observedOutputExprByKey _ := none
  nextStateExprByStateKey _ := none
  clockEventByStateKey _ := none
  connectivitySkipInfoByKey _ := none

theorem triplex_scanned :
    Scanned triplexContext triplexModel [triplexMemory] [triplexPending] where
  supported memory hmemory := by
    rw [List.mem_singleton.mp hmemory]
    rfl
  expressed memory hmemory := by
    rw [List.mem_singleton.mp hmemory]
    have hexpr : ∀ term, term ≠ 22 → triplexMemory.HasExpr triplexContext term := by
      intro term hterm
      refine ⟨term, .var (term - 10), rfl, ?_⟩
      simp [MemoryContext.materializeStructuredMemoryTermExpr, triplexContext, hterm]
    refine ⟨fun port hport term hterm => hexpr term ?_, fun port hport term hterm _ => hexpr term ?_,
      fun port hport _ term hterm => hexpr term ?_, nofun⟩
    · rw [List.mem_singleton.mp hport] at hterm
      intro h
      rw [h] at hterm
      exact absurd hterm (by decide)
    · rw [List.mem_singleton.mp hport] at hterm
      intro h
      rw [h] at hterm
      exact absurd hterm (by decide)
    · rw [List.mem_singleton.mp hport] at hterm
      intro h
      rw [h] at hterm
      exact absurd hterm (by decide)
  appended := rfl
  nodup := by decide
  fresh _ _ := rfl
  vars pending hpending := by
    rw [List.mem_singleton.mp hpending]
    intro key hkey
    have hkeys : key ∈ [([7, 0], [0, 0]), ([7, 0], [1, 0]), ([7, 0], [2, 0]), ([9], [])] := hkey
    simp only [List.mem_cons, List.not_mem_nil, or_false] at hkeys
    rcases hkeys with rfl | rfl | rfl | rfl
    · exact ⟨2, rfl, by decide⟩
    · exact ⟨3, rfl, by decide⟩
    · exact ⟨4, rfl, by decide⟩
    · exact ⟨5, rfl, by decide⟩

/-- With the read address 3 the memory does not follow the reference. -/
theorem triplex_not_followsRam :
    ¬ ∃ built, triplexModel.buildStructuredMemoryTransitions triplexContext [triplexPending] =
        .ok built ∧
      triplexMemory.FollowsRam triplexContext triplexModel built fun _ => true := by
  intro h
  obtain ⟨built, hbuilt, hfollows⟩ := h
  have hrange := triplex_scanned.inRange hbuilt List.mem_cons_self hfollows
  have hread := (hrange.reads ⟨[20, 21], [22]⟩ List.mem_cons_self Nat.one_pos).1
  exact absurd hread (by decide)

/-- With the read address 1 it does, whatever the write port does at another address. -/
theorem triplex_followsRam :
    (∃ built, triplexModel.buildStructuredMemoryTransitions triplexContext [triplexPending] =
        .ok built ∧
      ∀ memory ∈ [triplexMemory],
        memory.FollowsRam triplexContext triplexModel built fun v => v = 10 ∨ v = 16) ∧
    triplexMemory.InRange triplexContext fun v => v = 10 ∨ v = 16 := by
  have hrange : triplexMemory.InRange triplexContext fun v => v = 10 ∨ v = 16 := by
    refine ⟨fun port hport _ _ _ => by decide, fun _ _ _ => by decide,
      fun port hport bit hbit _ _ => ?_, fun port hport _ => ?_⟩
    · rw [List.mem_singleton.mp hport]
      decide
    · rw [List.mem_singleton.mp hport]
      decide
  refine ⟨(buildStructuredMemoryTransitions_followsRam_iff triplex_scanned _).mpr
    fun memory hmemory => ?_, hrange⟩
  rw [List.mem_singleton.mp hmemory]
  exact hrange

end ExtractionModel
end KeplerFormal
