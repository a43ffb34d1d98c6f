import KeplerFormal.L7Model.StructuredMemory

/-!
# The write ports of a memory (`src/sec/model/SequentialDesignModel.cpp`)

* `buildAddressEqualsExpr_spec`: the comparison looks at the low bits of the cell index.
* `foldlM_applyTo`: what the write ports make of a bit.
* `MemoryInstance.ramPort`: a write port of the interface under an assignment; an enable that
  cannot assert makes it inactive.
* `writePorts_spec`: the ports that are built write what the ports of the interface write.
-/
namespace KeplerFormal

open Core

/-! ## Expressions -/

namespace BoolExpr

theorem eval_foldl_And (σ : Valuation) (exprs : List BoolExpr) (expr : BoolExpr) :
    (exprs.foldl And expr).eval σ = (expr.eval σ && exprs.all fun e => e.eval σ) := by
  induction exprs generalizing expr with
  | nil => simp
  | cons e exprs ih => rw [List.foldl_cons, ih, eval_And, List.all_cons, Bool.and_assoc]

@[simp] theorem eval_makeAndChain (σ : Valuation) (exprs : List BoolExpr) :
    (makeAndChain exprs).eval σ = exprs.all fun e => e.eval σ := by
  cases exprs with
  | nil => rfl
  | cons expr exprs => exact eval_foldl_And σ exprs expr

@[simp] theorem eval_makeIte (σ : Valuation) (condition whenTrue whenFalse : BoolExpr) :
    (makeIte condition whenTrue whenFalse).eval σ =
      if condition.eval σ then whenTrue.eval σ else whenFalse.eval σ := by
  cases h : condition.eval σ <;> simp [makeIte, h]

end BoolExpr

/-- The number that address bits show. -/
def addressOf (σ : Valuation) (addressBits : List BoolExpr) : Nat :=
  bitsValue (addressBits.map (BoolExpr.eval σ))

theorem addressOf_lt (σ : Valuation) (addressBits : List BoolExpr) :
    addressOf σ addressBits < 2 ^ addressBits.length := by
  have h := bitsValue_lt (addressBits.map (BoolExpr.eval σ))
  rwa [List.length_map] at h

/-- The comparison looks at the low bits of the cell index. -/
theorem buildAddressEqualsExpr_spec {addressBits : List BoolExpr} (hsize : addressBits.length ≤ 64)
    (n : Nat) : ∃ equals, buildAddressEqualsExpr addressBits n = .ok equals ∧
      ∀ σ, equals.eval σ = true ↔ addressOf σ addressBits = n % 2 ^ addressBits.length := by
  refine ⟨_, by rw [buildAddressEqualsExpr, if_neg (not_lt.mpr hsize)], fun σ => ?_⟩
  have hmod := bitsValue_eq_mod_iff (addressBits.map (BoolExpr.eval σ)) n
  rw [List.length_map] at hmod
  rw [addressOf, hmod, BoolExpr.eval_makeAndChain, List.all_eq_true]
  have hbit : ∀ i, ((n >>> i) % 2 ≠ 0) ↔ n.testBit i = true := by
    intro i
    rw [Nat.testBit_eq_decide_div_mod_eq, Nat.shiftRight_eq_div_pow, decide_eq_true_eq]
    omega
  have heval : ∀ i (bit : BoolExpr),
      (if (n >>> i) % 2 ≠ 0 then bit else bit.Not).eval σ = true ↔ bit.eval σ = n.testBit i := by
    intro i bit
    by_cases h : (n >>> i) % 2 ≠ 0
    · rw [if_pos h, (hbit i).mp h]
    · rw [if_neg h, BoolExpr.eval_Not, Bool.eq_false_iff.mpr (mt (hbit i).mpr h), Bool.not_eq_true']
  constructor
  · intro h i bit hi
    rw [List.getElem?_map, Option.map_eq_some_iff] at hi
    obtain ⟨expr, hexpr, rfl⟩ := hi
    obtain ⟨hlt, hget⟩ := List.getElem?_eq_some_iff.mp hexpr
    refine (heval i expr).mp (h _ (List.mem_mapIdx.mpr ⟨i, hlt, ?_⟩))
    rw [hget]
  · intro h expr hexpr
    obtain ⟨i, hi, rfl⟩ := List.mem_mapIdx.mp hexpr
    refine (heval i _).mpr (h i _ ?_)
    rw [List.getElem?_map, List.getElem?_eq_getElem hi]
    rfl

theorem eval_withReset (σ : Valuation) (resetAsserted : Option BoolExpr) (next : BoolExpr) :
    (withReset resetAsserted next).eval σ =
      if resetAsserted.any (BoolExpr.eval σ) then false else next.eval σ := by
  cases resetAsserted with
  | none => rfl
  | some reset => rw [withReset, BoolExpr.eval_makeIte]; rfl

/-! ## Write ports -/

/-- Bits under an assignment; a bit that is not there is 0. -/
def bitAt (bits : List Bool) (index : Nat) : Bool := bits[index]?.getD false

theorem exprAt_spec {exprs : List BoolExpr} {index : Nat} (hindex : index < exprs.length) :
    ∃ expr, exprAt exprs index = .ok expr ∧
      ∀ σ, expr.eval σ = bitAt (exprs.map (BoolExpr.eval σ)) index := by
  refine ⟨exprs[index], by rw [exprAt, List.getElem?_eq_getElem hindex], fun σ => ?_⟩
  rw [bitAt, List.getElem?_map, List.getElem?_eq_getElem hindex]
  rfl

namespace WritePortExprs

/-- The port that the expressions show. -/
def ramPort (exprs : WritePortExprs) (σ : Valuation) : RamPort where
  active := !exprs.disabled && exprs.enableExprs.all (BoolExpr.eval σ)
  address := addressOf σ exprs.addressExprs
  mask bit := exprs.maskExprs.isEmpty || bitAt (exprs.maskExprs.map (BoolExpr.eval σ)) bit
  data bit := bitAt (exprs.dataExprs.map (BoolExpr.eval σ)) bit

/-- The lengths that the interface promises. -/
structure Shaped (exprs : WritePortExprs) (abits width : Nat) : Prop where
  address : exprs.addressExprs.length = abits
  data : exprs.dataExprs.length = width
  mask : exprs.maskExprs = [] ∨ exprs.maskExprs.length = width

/-- The port writes a bit of a cell whose index has the low bits of the address. -/
def Matches (exprs : WritePortExprs) (σ : Valuation) (cell bit : Nat) : Prop :=
  (exprs.ramPort σ).active = true ∧
    (exprs.ramPort σ).address = cell % 2 ^ exprs.addressExprs.length ∧
    (exprs.ramPort σ).mask bit = true

instance (exprs : WritePortExprs) (σ : Valuation) (cell bit : Nat) :
    Decidable (exprs.Matches σ cell bit) := inferInstanceAs (Decidable (_ ∧ _ ∧ _))

theorem writeCondition_spec {exprs : WritePortExprs} {abits width : Nat}
    (h : exprs.Shaped abits width) (henabled : exprs.disabled = false) (hsize : abits ≤ 64)
    (cell : Nat) {bit : Nat} (hbit : bit < width) :
    ∃ condition, exprs.writeCondition cell bit = .ok condition ∧
      ∀ σ, condition.eval σ = true ↔ exprs.Matches σ cell bit := by
  obtain ⟨equals, hequals, heval⟩ := buildAddressEqualsExpr_spec (h.address.trans_le hsize) cell
  have hmask : ∃ mask, exprs.maskCondition bit = .ok mask ∧
      ∀ σ, mask.all (fun e => e.eval σ) = (exprs.ramPort σ).mask bit := by
    unfold maskCondition
    by_cases hempty : exprs.maskExprs = []
    · exact ⟨[], by rw [if_pos hempty], fun σ => by simp [ramPort, hempty]⟩
    · obtain ⟨expr, hexpr, hmaskEval⟩ := exprAt_spec
        (show bit < exprs.maskExprs.length by rw [h.mask.resolve_left hempty]; exact hbit)
      refine ⟨[expr], by rw [if_neg hempty, hexpr]; rfl, fun σ => ?_⟩
      have hne : exprs.maskExprs.isEmpty = false := by simp [hempty]
      simp [ramPort, hne, hmaskEval]
  obtain ⟨mask, hmask, hmaskEval⟩ := hmask
  refine ⟨BoolExpr.makeAndChain (equals :: (exprs.enableExprs ++ mask)), ?_, fun σ => ?_⟩
  · unfold writeCondition
    rw [hequals]
    show (_ >>= _) = _
    rw [hmask]
    rfl
  · rw [BoolExpr.eval_makeAndChain, List.all_cons, List.all_append, hmaskEval, Bool.and_eq_true,
      Bool.and_eq_true, heval]
    unfold Matches
    rw [show (exprs.ramPort σ).active = exprs.enableExprs.all (fun e => e.eval σ) by
      simp [ramPort, henabled]]
    exact ⟨fun h => ⟨h.2.1, h.1, h.2.2⟩, fun h => ⟨h.2.1, h.1, h.2.2⟩⟩

/-- One port over the ports before it. -/
theorem applyTo_spec {exprs : WritePortExprs} {abits width : Nat}
    (h : exprs.disabled = false → exprs.Shaped abits width ∧ abits ≤ 64) (cell : Nat) {bit : Nat}
    (hbit : bit < width) (next : BoolExpr) :
    ∃ next', exprs.applyTo cell bit next = .ok next' ∧ ∀ σ, next'.eval σ =
      if exprs.Matches σ cell bit then (exprs.ramPort σ).data bit else next.eval σ := by
  cases hdisabled : exprs.disabled with
  | true =>
    refine ⟨next, by rw [applyTo, if_pos hdisabled], fun σ => (if_neg fun hmatches => ?_).symm⟩
    have hactive := hmatches.1
    simp [ramPort, hdisabled] at hactive
  | false =>
    obtain ⟨hshaped, hsize⟩ := h hdisabled
    obtain ⟨condition, hcondition, heval⟩ := writeCondition_spec hshaped hdisabled hsize cell hbit
    obtain ⟨data, hdata, hdataEval⟩ := exprAt_spec
      (show bit < exprs.dataExprs.length by rw [hshaped.data]; exact hbit)
    refine ⟨BoolExpr.makeIte condition data next, ?_, fun σ => ?_⟩
    · rw [applyTo, if_neg (by simp [hdisabled]), hcondition]
      show (_ >>= _) = _
      rw [hdata]
      rfl
    · rw [BoolExpr.eval_makeIte, hdataEval]
      exact if_congr (heval σ) rfl rfl

/-- All ports, over the old value. -/
theorem foldlM_applyTo {writes : List WritePortExprs} {abits width : Nat}
    (h : ∀ exprs ∈ writes, exprs.disabled = false → exprs.Shaped abits width ∧ abits ≤ 64)
    (cell : Nat) {bit : Nat} (hbit : bit < width) (next : BoolExpr) :
    ∃ next', writes.foldlM (applyTo cell bit) next = .ok next' ∧ ∀ σ, next'.eval σ =
      writes.foldl (fun old exprs => if exprs.Matches σ cell bit then (exprs.ramPort σ).data bit
        else old) (next.eval σ) := by
  induction writes generalizing next with
  | nil => exact ⟨next, rfl, fun σ => rfl⟩
  | cons exprs writes ih =>
    obtain ⟨first, hfirst, heval⟩ := applyTo_spec (h exprs List.mem_cons_self) cell hbit next
    obtain ⟨last, hlast, hlastEval⟩ := ih (fun e he => h e (List.mem_cons_of_mem _ he)) first
    refine ⟨last, ?_, fun σ => ?_⟩
    · rw [List.foldlM_cons]
      show ((exprs.applyTo cell bit next) >>= _) = _
      rw [hfirst]
      exact hlast
    · rw [hlastEval, heval]
      rfl

/-- Where no second cell has the address, a match is a write. -/
theorem matches_iff_writes {exprs : WritePortExprs} {σ : Valuation} {depth bit : Nat} :
    (∀ cell < depth, exprs.Matches σ cell bit ↔ (exprs.ramPort σ).Writes cell bit) ↔
      ((exprs.ramPort σ).active = true → (exprs.ramPort σ).mask bit = true →
        depth ≤ (exprs.ramPort σ).address + 2 ^ exprs.addressExprs.length) := by
  have hlt : (exprs.ramPort σ).address < 2 ^ exprs.addressExprs.length := addressOf_lt _ _
  unfold Matches RamPort.Writes
  constructor
  · intro h hactive hmask
    refine (mod_eq_iff_of_lt hlt).mp fun n hn => ?_
    have hcell := h n hn
    simpa [hactive, hmask] using hcell
  · intro h cell hcell
    refine and_congr_right fun hactive => ?_
    by_cases hmask : (exprs.ramPort σ).mask bit = true
    · rw [and_iff_left hmask, and_iff_left hmask]
      exact (mod_eq_iff_of_lt hlt).mpr (h hactive hmask) cell hcell
    · exact ⟨fun h => absurd h.2 hmask, fun h => absurd h.2 hmask⟩

end WritePortExprs

/-! ## Ports of an interface -/

/-- The value of a terminal. -/
def MemoryContext.termValue (ctx : MemoryContext) (σ : Valuation) (termID : Nat) : Bool :=
  match ctx.materializeStructuredMemoryTermExpr termID with
  | .ok expr => expr.eval σ
  | .error _ => false

namespace MemoryInstance
variable (ctx : MemoryContext) (memory : MemoryInstance)

/-- The value of a bit term. -/
def bitValue (σ : Valuation) (term : Nat) : Bool :=
  (memory.termIDsByBitTerm term).any (ctx.termValue σ)

/-- A bit term that is not held at 0 and not left open. -/
def canAssert (term : Nat) : Bool :=
  (memory.termIDsByBitTerm term).any fun termID => !ctx.isDisabledOrUndrivenWriteEnable termID

def addressValue (σ : Valuation) (address : List Nat) : Nat :=
  bitsValue (address.map (memory.bitValue ctx σ))

/-- A write port under an assignment. -/
def ramPort (σ : Valuation) (port : MemoryWritePort) : RamPort where
  active := port.enables.all fun term => memory.canAssert ctx term && memory.bitValue ctx σ term
  address := memory.addressValue ctx σ port.address
  mask bit := port.mask.isEmpty || bitAt (port.mask.map (memory.bitValue ctx σ)) bit
  data bit := bitAt (port.data.map (memory.bitValue ctx σ)) bit

/-- The reset under an assignment. -/
def resetAsserted (σ : Valuation) : Bool :=
  memory.interface.reset.any fun reset =>
    match memory.interface.resetMode with
    | .AsyncLow | .SyncLow => !memory.bitValue ctx σ reset
    | .AsyncHigh | .SyncHigh => memory.bitValue ctx σ reset
    | .None => false

/-- The terminal of a bit term has an expression. -/
def HasExpr (term : Nat) : Prop :=
  ∃ termID expr, memory.termIDsByBitTerm term = some termID ∧
    ctx.materializeStructuredMemoryTermExpr termID = .ok expr

/-- What the memory depends on has an expression; nothing more is asked of a port that cannot
be enabled. -/
structure Expressed : Prop where
  reads : ∀ port ∈ memory.interface.readPorts, ∀ term ∈ port.address, memory.HasExpr ctx term
  enables : ∀ port ∈ memory.interface.writePorts, ∀ term ∈ port.enables,
    memory.canAssert ctx term = true → memory.HasExpr ctx term
  writes : ∀ port ∈ memory.interface.writePorts,
    (∀ term ∈ port.enables, memory.canAssert ctx term = true) →
      ∀ term ∈ port.address ++ port.data ++ port.mask, memory.HasExpr ctx term
  reset : ∀ term ∈ memory.interface.reset, memory.interface.resetMode ≠ .None →
    memory.HasExpr ctx term

variable {ctx memory}

theorem getRequired_eq_ok {context : String} {term termID : Nat} :
    memory.getRequiredInstanceTermID context term = .ok termID ↔
      memory.termIDsByBitTerm term = some termID := by
  unfold getRequiredInstanceTermID
  cases memory.termIDsByBitTerm term <;> simp

/-- Terminals that all have expressions. -/
theorem materialize_mapM {context : String} {terms termIDs : List Nat}
    (hterms : terms.mapM (memory.getRequiredInstanceTermID context) = .ok termIDs)
    (hexpr : ∀ term ∈ terms, memory.HasExpr ctx term) :
    ∃ exprs, termIDs.mapM ctx.materializeStructuredMemoryTermExpr = .ok exprs ∧
      exprs.length = terms.length ∧
      ∀ σ, exprs.map (BoolExpr.eval σ) = terms.map (memory.bitValue ctx σ) := by
  have hok : ∀ termID ∈ termIDs,
      ∃ expr, ctx.materializeStructuredMemoryTermExpr termID = .ok expr := by
    intro termID htermID
    obtain ⟨term, hterm, hget⟩ := (mem_mapM hterms termID).mp htermID
    obtain ⟨termID', expr, hlookup, hmat⟩ := hexpr term hterm
    have hsame := (getRequired_eq_ok.mp hget).symm.trans hlookup
    exact ⟨expr, by rw [Option.some.inj hsame, hmat]⟩
  obtain ⟨exprs, hexprs⟩ := mapM_ok hok
  refine ⟨exprs, hexprs, (mapM_length hexprs).trans (mapM_length hterms), fun σ => ?_⟩
  rw [mapM_map_eq (k := ctx.termValue σ) hexprs fun termID _ expr hexpr => by
    rw [MemoryContext.termValue, hexpr]]
  refine mapM_map_eq hterms fun term _ termID hget => ?_
  rw [bitValue, getRequired_eq_ok.mp hget, Option.any_some]

/-- The enables of a port. -/
theorem enableExprs_spec {context : String} {terms termIDs : List Nat}
    (hterms : terms.mapM (memory.getRequiredInstanceTermID context) = .ok termIDs)
    (hexpr : ∀ term ∈ terms, memory.canAssert ctx term = true → memory.HasExpr ctx term) :
    (ctx.enableExprs termIDs = .ok none ∧ ∃ term ∈ terms, memory.canAssert ctx term = false) ∨
    (∃ exprs, ctx.enableExprs termIDs = .ok (some exprs) ∧
      (∀ term ∈ terms, memory.canAssert ctx term = true) ∧
      ∀ σ, exprs.map (BoolExpr.eval σ) = terms.map (memory.bitValue ctx σ)) := by
  induction terms generalizing termIDs with
  | nil =>
    rw [List.mapM_nil] at hterms
    obtain rfl := Except.ok.inj hterms
    exact .inr ⟨[], rfl, by simp, fun σ => rfl⟩
  | cons term terms ih =>
    obtain ⟨termID, hget, rest, hrest, rfl⟩ := mapM_cons_ok.mp hterms
    have hlookup := getRequired_eq_ok.mp hget
    have hcan : memory.canAssert ctx term = !ctx.isDisabledOrUndrivenWriteEnable termID := by
      rw [canAssert, hlookup, Option.any_some]
    rw [MemoryContext.enableExprs]
    cases hdisabled : ctx.isDisabledOrUndrivenWriteEnable termID with
    | true => exact .inl ⟨if_pos rfl, term, List.mem_cons_self, by rw [hcan, hdisabled]; rfl⟩
    | false =>
      rw [hdisabled] at hcan
      obtain ⟨termID', expr, hlookup', hmat⟩ := hexpr term List.mem_cons_self hcan
      have hsame := Option.some.inj (hlookup'.symm.trans hlookup)
      rw [hsame] at hmat
      rw [if_neg (by simp), hmat]
      rcases ih hrest fun t ht => hexpr t (List.mem_cons_of_mem _ ht) with
        ⟨hnone, bad, hbad, hfalse⟩ | ⟨exprs, hexprs, hall, heval⟩
      · refine .inl ⟨?_, bad, List.mem_cons_of_mem _ hbad, hfalse⟩
        show (ctx.enableExprs rest >>= _) = _
        rw [hnone]
        rfl
      · refine .inr ⟨expr :: exprs, ?_, List.forall_mem_cons.mpr ⟨hcan, hall⟩, fun σ => ?_⟩
        · show (ctx.enableExprs rest >>= _) = _
          rw [hexprs]
          rfl
        · rw [List.map_cons, List.map_cons, heval]
          refine congrArg (· :: _) ?_
          rw [bitValue, hlookup, Option.any_some, MemoryContext.termValue, hmat]

/-- A write port is left out when an enable is held at 0 or left open. -/
theorem appendWritePort_ok {port : MemoryWritePort} {pending? : Option PendingMemoryWritePort}
    (happend : ctx.appendWritePort memory port = .ok pending?) :
    ∃ enables, port.enables.mapM (memory.getRequiredInstanceTermID "write-enable") = .ok enables ∧
      (if enables.any ctx.isDisabledMemoryWriteEnable = true then pending? = none
      else ∃ pending, pending? = some pending ∧ pending.enableTermIDs = enables ∧
        port.address.mapM (memory.getRequiredInstanceTermID "write-address") =
          .ok pending.addressTermIDs ∧
        port.data.mapM (memory.getRequiredInstanceTermID "write-data") =
          .ok pending.dataTermIDs ∧
        port.mask.mapM (memory.getRequiredInstanceTermID "write-mask") =
          .ok pending.maskTermIDs) := by
  unfold MemoryContext.appendWritePort at happend
  obtain ⟨enables, henables, happend⟩ := bind_ok.mp happend
  refine ⟨enables, henables, ?_⟩
  split at happend
  · rename_i hany
    rw [if_pos hany]
    exact (Except.ok.inj happend).symm
  · rename_i hany
    rw [if_neg hany]
    obtain ⟨address, haddress, happend⟩ := bind_ok.mp happend
    obtain ⟨data, hdata, happend⟩ := bind_ok.mp happend
    obtain ⟨mask, hmask, happend⟩ := bind_ok.mp happend
    obtain ⟨extra, -, happend⟩ := bind_ok.mp happend
    obtain rfl := Except.ok.inj happend
    exact ⟨_, rfl, rfl, haddress, hdata, hmask⟩

theorem ramPort_not_active {port : MemoryWritePort} {term : Nat} (hterm : term ∈ port.enables)
    (hnot : memory.canAssert ctx term = false) (σ : Valuation) :
    (memory.ramPort ctx σ port).active = false := by
  refine List.all_eq_false.mpr ⟨term, hterm, ?_⟩
  simp [hnot]

/-- A port that is left out has an enable that cannot assert. -/
theorem exists_not_canAssert {port : MemoryWritePort}
    (happend : ctx.appendWritePort memory port = .ok none) :
    ∃ term ∈ port.enables, memory.canAssert ctx term = false := by
  obtain ⟨enables, henables, hcase⟩ := appendWritePort_ok happend
  split at hcase
  · rename_i hany
    obtain ⟨termID, htermID, hdisabled⟩ := List.any_eq_true.mp hany
    obtain ⟨term, hterm, hget⟩ := (mem_mapM henables termID).mp htermID
    refine ⟨term, hterm, ?_⟩
    rw [canAssert, getRequired_eq_ok.mp hget, Option.any_some,
      MemoryContext.isDisabledOrUndrivenWriteEnable, hdisabled]
    rfl
  · obtain ⟨pending, hpending, -⟩ := hcase
    cases hpending

/-- What the expressions of an enabled write port have to do with the port. -/
structure ShowsPort (ctx : MemoryContext) (memory : MemoryInstance) (exprs : WritePortExprs)
    (port : MemoryWritePort) : Prop where
  enabled : ∀ term ∈ port.enables, memory.canAssert ctx term = true
  values : ∀ σ, exprs.ramPort σ = memory.ramPort ctx σ port
  address : exprs.addressExprs.length = port.address.length
  data : exprs.dataExprs.length = port.data.length
  mask : exprs.maskExprs.length = port.mask.length

/-- The expressions of a write port show the port. -/
theorem writePortExprs_spec (hexpr : memory.Expressed ctx) {port : MemoryWritePort}
    (hport : port ∈ memory.interface.writePorts) {pending : PendingMemoryWritePort}
    (happend : ctx.appendWritePort memory port = .ok (some pending)) :
    ∃ exprs, ctx.writePortExprs pending = .ok exprs ∧
      (exprs.disabled = true → ∃ term ∈ port.enables, memory.canAssert ctx term = false) ∧
      (exprs.disabled = false → ShowsPort ctx memory exprs port) := by
  obtain ⟨enableIDs, henables, hcase⟩ := appendWritePort_ok happend
  split at hcase
  · cases hcase
  obtain ⟨pending', hsame, rfl, haddress, hdata, hmask⟩ := hcase
  obtain rfl := Option.some.inj hsame
  unfold MemoryContext.writePortExprs
  rcases enableExprs_spec henables (hexpr.enables port hport) with
    ⟨hnone, term, hterm, hfalse⟩ | ⟨enables, hsome, hall, henablesEval⟩
  · rw [hnone]
    exact ⟨{ disabled := true }, rfl, fun _ => ⟨term, hterm, hfalse⟩, nofun⟩
  · have hrest := hexpr.writes port hport hall
    obtain ⟨addressExprs, haddress', haddressLength, haddressEval⟩ := materialize_mapM haddress
      fun t ht => hrest t (List.mem_append_left _ (List.mem_append_left _ ht))
    obtain ⟨dataExprs, hdata', hdataLength, hdataEval⟩ := materialize_mapM hdata
      fun t ht => hrest t (List.mem_append_left _ (List.mem_append_right _ ht))
    obtain ⟨maskExprs, hmask', hmaskLength, hmaskEval⟩ := materialize_mapM hmask
      fun t ht => hrest t (List.mem_append_right _ ht)
    rw [hsome]
    refine ⟨{ addressExprs, dataExprs, maskExprs, enableExprs := enables }, ?_, nofun, fun _ =>
      ⟨hall, fun σ => ?_, haddressLength, hdataLength, hmaskLength⟩⟩
    · show (_ >>= _) = _
      rw [haddress']
      show (_ >>= _) = _
      rw [hdata']
      show (_ >>= _) = _
      rw [hmask']
      rfl
    · have hactive : enables.all (BoolExpr.eval σ) = port.enables.all fun term =>
          memory.canAssert ctx term && memory.bitValue ctx σ term := by
        have hvalues : enables.all (BoolExpr.eval σ) =
            (enables.map (BoolExpr.eval σ)).all id := by simp
        rw [hvalues, henablesEval, List.all_map, Bool.eq_iff_iff, List.all_eq_true,
          List.all_eq_true]
        refine forall_congr' fun term => forall_congr' fun hterm => ?_
        simp [hall term hterm]
      have hempty : maskExprs.isEmpty = port.mask.isEmpty := by
        rw [Bool.eq_iff_iff, List.isEmpty_iff_length_eq_zero, List.isEmpty_iff_length_eq_zero,
          hmaskLength]
      unfold WritePortExprs.ramPort ramPort addressOf addressValue
      simp only [Bool.not_false, Bool.true_and, hactive, haddressEval, hdataEval, hmaskEval, hempty]

theorem commit_congr {a b : RamPort} (h : a = b ∨ a.active = false ∧ b.active = false)
    (content : Memory) : a.commit content = b.commit content := by
  rcases h with rfl | ⟨ha, hb⟩
  · rfl
  · rw [commit_of_not_active ha, commit_of_not_active hb]

/-- The ports that are built write what the ports of the interface write. -/
theorem writePorts_spec (hexpr : memory.Expressed ctx) {ports : List MemoryWritePort}
    (hports : ports ⊆ memory.interface.writePorts)
    {pendings : List (Option PendingMemoryWritePort)}
    (happend : ports.mapM (ctx.appendWritePort memory) = .ok pendings) :
    ∃ writes, pendings.reduceOption.mapM ctx.writePortExprs = .ok writes ∧
      (∀ exprs ∈ writes, exprs.disabled = false → ∃ port ∈ ports,
        ShowsPort ctx memory exprs port) ∧
      ∀ σ content, (writes.map fun exprs => exprs.ramPort σ).foldl RamPort.commit content =
        (ports.map (memory.ramPort ctx σ)).foldl RamPort.commit content := by
  induction ports generalizing pendings with
  | nil =>
    rw [List.mapM_nil] at happend
    obtain rfl := Except.ok.inj happend
    exact ⟨[], rfl, by simp, fun σ content => rfl⟩
  | cons port ports ih =>
    obtain ⟨hport, hports⟩ := List.cons_subset.mp hports
    obtain ⟨pending?, hfirst, rest, hrest, rfl⟩ := mapM_cons_ok.mp happend
    obtain ⟨writes, hwrites, hshown, hfold⟩ := ih hports hrest
    cases pending? with
    | none =>
      refine ⟨writes, by rw [List.reduceOption_cons_of_none]; exact hwrites,
        fun exprs he hd => ?_, fun σ content => ?_⟩
      · obtain ⟨p, hp, h⟩ := hshown exprs he hd
        exact ⟨p, List.mem_cons_of_mem _ hp, h⟩
      · obtain ⟨term, hterm, hnot⟩ := exists_not_canAssert hfirst
        rw [hfold, List.map_cons, List.foldl_cons,
          commit_of_not_active (ramPort_not_active hterm hnot σ)]
    | some pending =>
      obtain ⟨exprs, hexprs, hdisabled, henabled⟩ := writePortExprs_spec hexpr hport hfirst
      refine ⟨exprs :: writes, ?_, fun e he hd => ?_, fun σ content => ?_⟩
      · rw [List.reduceOption_cons_of_some]
        exact mapM_cons_ok.mpr ⟨exprs, hexprs, writes, hwrites, rfl⟩
      · rcases List.mem_cons.mp he with rfl | he
        · exact ⟨port, List.mem_cons_self, henabled hd⟩
        · obtain ⟨p, hp, h⟩ := hshown e he hd
          exact ⟨p, List.mem_cons_of_mem _ hp, h⟩
      · have hcommit : (exprs.ramPort σ).commit content =
            (memory.ramPort ctx σ port).commit content := by
          apply commit_congr
          cases hd : exprs.disabled with
          | false => exact .inl ((henabled hd).values σ)
          | true =>
            obtain ⟨term, hterm, hnot⟩ := hdisabled hd
            exact .inr ⟨by simp [WritePortExprs.ramPort, hd], ramPort_not_active hterm hnot σ⟩
        rw [List.map_cons, List.map_cons, List.foldl_cons, List.foldl_cons, hfold, hcommit]

/-- The expressions of a read address. -/
theorem readAddressExprs_spec {termIDs : List Nat} {exprs : List BoolExpr}
    (hexprs : termIDs.mapM ctx.materializeStructuredMemoryTermExpr = .ok exprs) :
    ctx.readAddressExprs termIDs = (exprs, none) := by
  induction termIDs generalizing exprs with
  | nil =>
    rw [List.mapM_nil] at hexprs
    obtain rfl := Except.ok.inj hexprs
    rfl
  | cons termID termIDs ih =>
    obtain ⟨expr, hfirst, rest, hrest, rfl⟩ := mapM_cons_ok.mp hexprs
    rw [MemoryContext.readAddressExprs, hfirst]
    simp only [ih hrest]

end MemoryInstance

end KeplerFormal
