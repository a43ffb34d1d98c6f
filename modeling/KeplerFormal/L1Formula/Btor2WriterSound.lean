import KeplerFormal.L1Formula.Btor2Writer

/-!
# What the BTOR2 writer writes (`src/formal/Btor2Writer.cpp`)

* `symbolSuffix_inj`, `symbolSuffix_plain`: names stay apart and on their line.
* `WellFormed`: the document by itself: dense ids, references to earlier nodes of the right
  kind, one `init` and one `next` for a state, `init` values that come before the state and
  read no input.
* `Inv`: the document together with what the writer remembers; `inv_push` is the one lemma
  about a new line.
-/
namespace KeplerFormal.Btor2Writer

open Core

/-! ## Names -/

theorem hexDigit_plain : ∀ n < 16, 32 < hexDigit n ∧ hexDigit n < 127 ∧ hexDigit n ≠ 59 ∧
    hexDigit n ≠ 37 := by decide

theorem hexDigit_inj : ∀ n < 16, ∀ m < 16, hexDigit n = hexDigit m → n = m := by decide

theorem isPlain_iff {c : UInt8} : isPlain c = true ↔ 32 < c ∧ c < 127 ∧ c ≠ 59 ∧ c ≠ 37 := by
  simp [isPlain]

/-- No byte of an encoded name is a blank, a line end or a semicolon. -/
theorem encodeByte_visible (c : UInt8) : ∀ b ∈ encodeByte c, 32 < b ∧ b < 127 ∧ b ≠ 59 := by
  intro b hb
  have hlt := c.toNat_lt
  unfold encodeByte at hb
  split at hb
  · next hplain =>
    obtain ⟨hlow, hhigh, hne, -⟩ := isPlain_iff.mp hplain
    rw [List.mem_singleton.mp hb]
    exact ⟨hlow, hhigh, hne⟩
  · have hfirst := hexDigit_plain (c.toNat / 16) (by omega)
    have hsecond := hexDigit_plain (c.toNat % 16) (by omega)
    simp only [List.mem_cons, List.not_mem_nil, or_false] at hb
    rcases hb with rfl | rfl | rfl
    · decide
    · exact ⟨hfirst.1, hfirst.2.1, hfirst.2.2.1⟩
    · exact ⟨hsecond.1, hsecond.2.1, hsecond.2.2.1⟩

/-- The first byte and what follows it can be told from an encoded name. -/
theorem encodeByte_append_inj {c d : UInt8} {xs ys : Bytes}
    (h : encodeByte c ++ xs = encodeByte d ++ ys) : c = d ∧ xs = ys := by
  have hc := c.toNat_lt
  have hd := d.toNat_lt
  unfold encodeByte at h
  split at h <;> split at h
  · obtain ⟨rfl, hrest⟩ := List.cons.inj h
    exact ⟨rfl, hrest⟩
  · next hplain _ =>
    obtain ⟨rfl, -⟩ := List.cons.inj h
    exact absurd rfl (isPlain_iff.mp hplain).2.2.2
  · next hplain =>
    obtain ⟨rfl, -⟩ := List.cons.inj h
    exact absurd rfl (isPlain_iff.mp hplain).2.2.2
  · simp only [List.cons_append, List.nil_append, List.cons.injEq, true_and] at h
    obtain ⟨hhigh, hlow, hrest⟩ := h
    have h1 := hexDigit_inj _ (by omega) _ (by omega) hhigh
    have h2 := hexDigit_inj _ (by omega) _ (by omega) hlow
    exact ⟨UInt8.toNat_inj.mp (by omega), hrest⟩

theorem encodeByte_ne_nil (c : UInt8) : encodeByte c ≠ [] := by
  unfold encodeByte
  split <;> exact List.cons_ne_nil _ _

theorem encodeBytes_inj {a b : Bytes} (h : a.flatMap encodeByte = b.flatMap encodeByte) :
    a = b := by
  induction a generalizing b with
  | nil =>
    cases b with
    | nil => rfl
    | cons d b =>
      have hnil := (List.append_eq_nil_iff.mp h.symm).1
      exact absurd hnil (encodeByte_ne_nil d)
  | cons c a ih =>
    cases b with
    | nil => exact absurd (List.append_eq_nil_iff.mp h).1 (encodeByte_ne_nil c)
    | cons d b =>
      obtain ⟨rfl, hrest⟩ := encodeByte_append_inj h
      rw [ih hrest]

theorem symbolSuffix_inj {a b : Bytes} (h : symbolSuffix a = symbolSuffix b) : a = b := by
  unfold symbolSuffix at h
  cases a with
  | nil =>
    cases b with
    | nil => rfl
    | cons d b => cases h
  | cons c a =>
    cases b with
    | nil => cases h
    | cons d b => exact encodeBytes_inj (List.cons.inj h).2

/-- After the separating blank a suffix has visible bytes only. -/
theorem symbolSuffix_plain {a : Bytes} (ha : a ≠ []) :
    ∃ rest, symbolSuffix a = 32 :: rest ∧ ∀ c ∈ rest, 32 < c ∧ c < 127 ∧ c ≠ 59 := by
  refine ⟨a.flatMap encodeByte, ?_, fun c hc => ?_⟩
  · cases a with
    | nil => exact absurd rfl ha
    | cons c a => rfl
  · obtain ⟨d, -, hd⟩ := List.mem_flatMap.mp hc
    exact encodeByte_visible d c hd

/-! ## Lines -/

theorem newline_symbolSuffix (a : Bytes) : (10 : UInt8) ∉ symbolSuffix a := by
  intro h
  cases a with
  | nil => exact absurd h List.not_mem_nil
  | cons c a =>
    obtain ⟨rest, hsuffix, hplain⟩ := symbolSuffix_plain (List.cons_ne_nil c a)
    rw [hsuffix] at h
    rcases List.mem_cons.mp h with h32 | hrest
    · exact absurd h32 (by decide)
    · exact absurd (hplain 10 hrest).1 (by decide)

theorem toUInt8_digit {n : Nat} {c : Char} (hc : c ∈ Nat.toDigits 10 n) :
    48 ≤ c.toNat ∧ c.toNat ≤ 57 ∧ c.toNat.toUInt8.toNat = c.toNat := by
  have hdigit := Nat.isDigit_of_mem_toDigits (by decide) (by decide) hc
  obtain ⟨hlow, hhigh⟩ : 48 ≤ c.toNat ∧ c.toNat ≤ 57 := by
    unfold Char.isDigit at hdigit
    rw [Bool.and_eq_true, decide_eq_true_eq, decide_eq_true_eq, ge_iff_le,
      UInt32.le_iff_toNat_le, UInt32.le_iff_toNat_le] at hdigit
    exact hdigit
  refine ⟨hlow, hhigh, ?_⟩
  simp only [Nat.toUInt8, UInt8.toNat_ofNat']
  omega

theorem mem_number {n : Nat} {b : UInt8} (h : b ∈ number n) : 48 ≤ b.toNat ∧ b.toNat ≤ 57 := by
  obtain ⟨c, hc, rfl⟩ := List.mem_map.mp h
  obtain ⟨hlow, hhigh, hval⟩ := toUInt8_digit hc
  omega

theorem number_inj {n m : Nat} (h : number n = number m) : n = m := by
  have hchars : ∀ k, (number k).map (fun b => Char.ofNat b.toNat) = Nat.toDigits 10 k := by
    intro k
    unfold number
    rw [List.map_map, List.map_congr_left (g := id), List.map_id]
    intro c hc
    rw [Function.comp, (toUInt8_digit hc).2.2, Char.ofNat_toNat]
    rfl
  have hdigits := congrArg (List.map fun b : UInt8 => Char.ofNat b.toNat) h
  rw [hchars, hchars] at hdigits
  rw [← Nat.ofDigitChars_ten_toDigits (n := n), hdigits, Nat.ofDigitChars_ten_toDigits]

theorem newline_number (n : Nat) : (10 : UInt8) ∉ number n :=
  fun h => absurd (mem_number h).1 (by decide)

theorem newline_body (body : LineBody) : (10 : UInt8) ∉ body.text := by
  have hops : ∀ op : BinaryOp, (10 : UInt8) ∉ ascii op.text := fun op => by cases op <;> decide
  have hprops : ∀ op : PropertyOp, (10 : UInt8) ∉ ascii op.text := fun op => by
    cases op <;> decide
  cases body with
  | sort => decide
  | const value => cases value <;> decide
  | input symbol | state symbol =>
    refine List.not_mem_append (by decide) (newline_symbolSuffix symbol)
  | not value => exact List.not_mem_append (by decide) (newline_number value)
  | binary op left right =>
    simp only [LineBody.text, List.mem_append, not_or]
    exact ⟨⟨⟨⟨hops op, by decide⟩, newline_number left⟩, by decide⟩, newline_number right⟩
  | init target value | next target value =>
    simp only [LineBody.text, List.mem_append, not_or]
    exact ⟨⟨⟨by decide, newline_number target⟩, by decide⟩, newline_number value⟩
  | property op value symbol =>
    simp only [LineBody.text, List.mem_append, not_or]
    exact ⟨⟨⟨hprops op, by decide⟩, newline_number value⟩, newline_symbolSuffix symbol⟩

/-- Every entry of the document is one line of the stream. -/
theorem newline_line (line : DocLine) : (10 : UInt8) ∉ line.text := by
  cases line with
  | node id body =>
    simp only [DocLine.text, List.mem_append, not_or]
    exact ⟨⟨newline_number id, by decide⟩, newline_body body⟩
  | comment text =>
    refine List.not_mem_append (by decide) fun h => ?_
    obtain ⟨c, -, hc⟩ := List.mem_map.mp h
    split at hc
    · next hkeep =>
      rw [hc] at hkeep
      exact absurd hkeep.1 (by decide)
    · exact absurd hc (by decide)

/-! ## The document by itself -/

def IsValue (doc : List DocLine) (n : Nat) : Prop :=
  ∃ body, (n, body) ∈ nodeLines doc ∧ body.kind ≠ .other

def IsState (doc : List DocLine) (n : Nat) : Prop :=
  ∃ symbol, (n, .state symbol) ∈ nodeLines doc

/-- The nodes from which an operator computes its value. -/
def LineBody.operands : LineBody → List Nat
  | .not value => [value]
  | .binary _ left right => [left, right]
  | _ => []

def initTarget : LineBody → Option Nat
  | .init target _ => some target
  | _ => none

def nextTarget : LineBody → Option Nat
  | .next target _ => some target
  | _ => none

/-- The value of the node is computed from an input. -/
def ReadsInput (doc : List DocLine) (n : Nat) : Prop :=
  ∃ i symbol, (i, .input symbol) ∈ nodeLines doc ∧
    NodeDocument.Reaches LineBody.operands (nodeLines doc) n i

structure WellFormed (doc : List DocLine) : Prop where
  sort : (1, .sort) ∈ nodeLines doc
  ids : (nodeLines doc).map Prod.fst = List.range' 1 (nodeLines doc).length
  valueRefs : ∀ node ∈ nodeLines doc, ∀ r ∈ node.2.valueRefs, r < node.1 ∧ IsValue doc r
  stateRefs : ∀ node ∈ nodeLines doc, ∀ r ∈ node.2.stateRefs, r < node.1 ∧ IsState doc r
  inits : ((nodeLines doc).filterMap fun node => initTarget node.2).Nodup
  nexts : ((nodeLines doc).filterMap fun node => nextTarget node.2).Nodup
  initValues : ∀ id target value, (id, .init target value) ∈ nodeLines doc →
    value < target ∧ ¬ ReadsInput doc value
  lines : ∀ line ∈ doc, (10 : UInt8) ∉ line.text

section Document
variable {doc later : List DocLine}

theorem nodeLines_append : nodeLines (doc ++ later) = nodeLines doc ++ nodeLines later :=
  List.filterMap_append

theorem nodeLines_comment (text : Bytes) : nodeLines (doc ++ [.comment text]) = nodeLines doc := by
  rw [nodeLines_append]
  exact List.append_nil _

theorem nodeLines_node (id : Nat) (body : LineBody) :
    nodeLines (doc ++ [.node id body]) = nodeLines doc ++ [(id, body)] := by
  rw [nodeLines_append]
  rfl

theorem IsValue.append {n : Nat} (h : IsValue doc n) : IsValue (doc ++ later) n := by
  obtain ⟨body, hbody, hkind⟩ := h
  exact ⟨body, by rw [nodeLines_append]; exact List.mem_append_left _ hbody, hkind⟩

theorem IsState.append {n : Nat} (h : IsState doc n) : IsState (doc ++ later) n := by
  obtain ⟨symbol, hsymbol⟩ := h
  exact ⟨symbol, by rw [nodeLines_append]; exact List.mem_append_left _ hsymbol⟩

theorem WellFormed.id_bounds (h : WellFormed doc) {node : Nat × LineBody}
    (hnode : node ∈ nodeLines doc) : 1 ≤ node.1 ∧ node.1 ≤ (nodeLines doc).length := by
  have hmem := List.mem_map_of_mem (f := Prod.fst) hnode
  rw [h.ids, List.mem_range'_1] at hmem
  omega

theorem WellFormed.value_le (h : WellFormed doc) {n : Nat} (hn : IsValue doc n) :
    n ≤ (nodeLines doc).length := by
  obtain ⟨body, hbody, -⟩ := hn
  exact (h.id_bounds hbody).2

/-- Lines that are written later do not change the value of a node. -/
theorem docValue_append (h : WellFormed (doc ++ later)) (leaf : Nat → Bool) {n : Nat}
    (hn : n ≤ (nodeLines doc).length) :
    docValue (doc ++ later) leaf n = docValue doc leaf n := by
  unfold docValue
  rw [nodeLines_append]
  apply NodeDocument.values_append
  intro node hnode heq
  have hids := h.ids
  rw [nodeLines_append, List.map_append, List.length_append, ← List.range'_append_1] at hids
  have hlater := (List.append_inj hids (by simp)).2
  have hmem := List.mem_map_of_mem (f := Prod.fst) hnode
  rw [hlater, List.mem_range'_1] at hmem
  omega

/-- A constant has the value of its line. -/
theorem docValue_const (h : WellFormed doc) (leaf : Nat → Bool) {n : Nat} {b : Bool}
    (hn : (n, .const b) ∈ nodeLines doc) : docValue doc leaf n = b := by
  obtain ⟨before, after, hsplit⟩ := List.append_of_mem hn
  have hnodup : ((nodeLines doc).map Prod.fst).Nodup := by
    rw [h.ids]
    exact List.nodup_range'
  rw [hsplit, List.map_append, List.map_cons] at hnodup
  have hlater := (List.nodup_cons.mp (List.nodup_append'.mp hnodup).2.1).1
  have hother : ∀ node ∈ after, node.1 ≠ n := by
    intro node hnode heq
    exact hlater (List.mem_map.mpr ⟨node, hnode, heq⟩)
  unfold docValue
  rw [hsplit, List.append_cons, NodeDocument.values_append _ _ _ _ hother,
    NodeDocument.values_last]
  rfl

end Document

/-! ## The document and the writer -/

namespace Writer

/-- The writer has marked the node as one that reads an input. -/
def Marked (w : Writer) (n : Nat) : Prop := w.dependsOnInput.getD n false = true

/-- The values of the variables, through their nodes. -/
def bound (w : Writer) (leaf : Nat → Bool) : Valuation := fun s =>
  match w.variableNodes.lookup s with
  | some n => docValue w.doc leaf n
  | none => false

/-- The node has the value of the expression. -/
structure Denotes (w : Writer) (e : BoolExpr) (n : Nat) : Prop where
  isValue : IsValue w.doc n
  known : ∀ s ∈ e.getSupportVars, 2 ≤ s → (w.variableNodes.lookup s).isSome
  value : ∀ leaf, docValue w.doc leaf n = e.eval (w.bound leaf)

structure Inv (w : Writer) : Prop where
  wf : WellFormed w.doc
  length : w.nodes.length = (nodeLines w.doc).length + 1
  marksLength : w.dependsOnInput.length = w.nodes.length
  zero : w.nodes[0]? = some .other
  kinds : ∀ node ∈ nodeLines w.doc, w.nodes[node.1]? = some node.2.kind
  inputs : ∀ i symbol, (i, .input symbol) ∈ nodeLines w.doc → w.Marked i
  initMarks : ∀ id target value, (id, .init target value) ∈ nodeLines w.doc → ¬ w.Marked value
  marks : ∀ n m, NodeDocument.RefersTo LineBody.operands (nodeLines w.doc) n m →
    w.Marked m → w.Marked n
  initialized : ∀ n, n ∈ w.initialized ↔
    n ∈ (nodeLines w.doc).filterMap fun node => initTarget node.2
  transitioned : ∀ n, n ∈ w.transitioned ↔
    n ∈ (nodeLines w.doc).filterMap fun node => nextTarget node.2
  constants : ∀ b n, (n, .const b) ∈ nodeLines w.doc ↔ n = w.constantOf b ∧ n ≠ 0
  bindings : ∀ s n, w.variableNodes.lookup s = some n → IsValue w.doc n
  expressions : ∀ e n, w.expressions.lookup e = some n → w.Denotes e n

theorem inv_start : Inv {} := by
  refine ⟨⟨List.mem_singleton_self _, rfl, ?_, ?_, List.nodup_nil, List.nodup_nil, ?_, ?_⟩, rfl, rfl, rfl, ?_, ?_, ?_, ?_, ?_,
    ?_, ?_, nofun, nofun⟩
  · intro node hnode
    rw [List.mem_singleton.mp hnode]
    exact fun r hr => absurd hr List.not_mem_nil
  · intro node hnode
    rw [List.mem_singleton.mp hnode]
    exact fun r hr => absurd hr List.not_mem_nil
  · intro id target value h
    cases List.mem_singleton.mp h
  · exact fun line _ => newline_line line
  · intro node hnode
    rw [List.mem_singleton.mp hnode]
    rfl
  · intro i symbol h
    cases List.mem_singleton.mp h
  · intro id target value h
    cases List.mem_singleton.mp h
  · intro n m ⟨body, hbody, hm⟩
    cases List.mem_singleton.mp hbody
    exact absurd hm List.not_mem_nil
  · exact fun n => Iff.rfl
  · exact fun n => Iff.rfl
  · intro b n
    refine ⟨fun h => (by cases List.mem_singleton.mp h), fun ⟨hn, hzero⟩ => ?_⟩
    cases b <;> exact absurd hn hzero

section Checks
variable {w : Writer}

theorem Inv.line_of_kind (h : w.Inv) {n : Nat} {k : NodeKind} (hk : w.nodes[n]? = some k)
    (hother : k ≠ .other) : ∃ body, (n, body) ∈ nodeLines w.doc ∧ body.kind = k := by
  have hlt : n < w.nodes.length := (List.getElem?_eq_some_iff.mp hk).1
  have hpos : n ≠ 0 := fun h0 => by
    rw [h0, h.zero] at hk
    exact hother (Option.some.inj hk).symm
  have hmem : n ∈ (nodeLines w.doc).map Prod.fst := by
    rw [h.wf.ids, List.mem_range'_1]
    have := h.length
    omega
  obtain ⟨⟨m, body⟩, hnode, rfl⟩ := List.mem_map.mp hmem
  refine ⟨body, hnode, ?_⟩
  have hkind := h.kinds _ hnode
  rw [hk] at hkind
  exact (Option.some.inj hkind).symm

theorem Inv.requireValue (h : w.Inv) {n : Nat} (hn : w.requireValue n = .ok ()) :
    IsValue w.doc n := by
  unfold Writer.requireValue at hn
  cases hk : w.nodes[n]? with
  | none =>
    rw [hk] at hn
    cases hn
  | some k =>
    have hother : k ≠ .other := fun heq => by
      rw [hk, heq] at hn
      cases hn
    obtain ⟨body, hbody, hkind⟩ := h.line_of_kind hk hother
    exact ⟨body, hbody, hkind ▸ hother⟩

theorem Inv.requireState (h : w.Inv) {n : Nat} (hn : w.requireState n = .ok ()) :
    IsState w.doc n := by
  unfold Writer.requireState at hn
  cases hk : w.nodes[n]? with
  | none =>
    rw [hk] at hn
    cases hn
  | some k =>
    have hstate : k = .state := by
      rw [hk] at hn
      cases k <;> first | rfl | cases hn
    obtain ⟨body, hbody, hkind⟩ := h.line_of_kind hk (by rw [hstate]; nofun)
    rw [hstate] at hkind
    cases body with
    | state symbol => exact ⟨symbol, hbody⟩
    | _ => cases hkind

end Checks

/-! ### A new line -/

/-- What later calls keep. -/
structure Grows (w w' : Writer) : Prop where
  doc : ∃ later, w'.doc = w.doc ++ later
  bindings : ∀ s n, w.variableNodes.lookup s = some n → w'.variableNodes.lookup s = some n
  expressions : ∀ e n, w.expressions.lookup e = some n → w'.expressions.lookup e = some n

theorem Grows.refl (w : Writer) : Grows w w :=
  ⟨⟨[], (List.append_nil _).symm⟩, fun _ _ h => h, fun _ _ h => h⟩

theorem Grows.trans {w w' w'' : Writer} (h : Grows w w') (h' : Grows w' w'') : Grows w w'' := by
  obtain ⟨later, hdoc⟩ := h.doc
  obtain ⟨later', hdoc'⟩ := h'.doc
  refine ⟨⟨later ++ later', by rw [hdoc', hdoc, List.append_assoc]⟩, fun s n hn => ?_,
    fun e n hn => ?_⟩
  · exact h'.bindings s n (h.bindings s n hn)
  · exact h'.expressions e n (h.expressions e n hn)

theorem Inv.value_stable {w w' : Writer} (h : w.Inv) (hw' : WellFormed w'.doc) (hgrow : Grows w w')
    (leaf : Nat → Bool) {n : Nat} (hn : IsValue w.doc n) :
    docValue w'.doc leaf n = docValue w.doc leaf n := by
  obtain ⟨later, hdoc⟩ := hgrow.doc
  rw [hdoc] at hw' ⊢
  exact docValue_append hw' leaf (h.wf.value_le hn)

theorem Inv.denotes_grow {w w' : Writer} (h : w.Inv) (hw' : WellFormed w'.doc)
    (hgrow : Grows w w') {e : BoolExpr} {n : Nat} (hd : w.Denotes e n) : w'.Denotes e n := by
  refine ⟨?_, fun s hs h2 => ?_, fun leaf => ?_⟩
  · obtain ⟨later, hdoc⟩ := hgrow.doc
    rw [hdoc]
    exact hd.isValue.append
  · obtain ⟨m, hm⟩ := Option.isSome_iff_exists.mp (hd.known s hs h2)
    rw [hgrow.bindings s m hm]
    rfl
  · rw [h.value_stable hw' hgrow leaf hd.isValue, hd.value leaf]
    apply BoolExpr.eval_congr
    intro s hs h2
    obtain ⟨m, hm⟩ := Option.isSome_iff_exists.mp (hd.known s hs h2)
    rw [bound, bound, hm, hgrow.bindings s m hm]
    exact (h.value_stable hw' hgrow leaf (h.bindings s m hm)).symm

/-- One more line. -/
def push (w : Writer) (body : LineBody) (mark : Bool) : Writer :=
  { w with
    doc := w.doc ++ [.node w.nodes.length body]
    nodes := w.nodes ++ [body.kind]
    dependsOnInput := w.dependsOnInput ++ [mark]
    constantFalse := if body = .const false then w.nodes.length else w.constantFalse
    constantTrue := if body = .const true then w.nodes.length else w.constantTrue
    initialized := (initTarget body).toList ++ w.initialized
    transitioned := (nextTarget body).toList ++ w.transitioned }

theorem grows_push (w : Writer) (body : LineBody) (mark : Bool) : Grows w (w.push body mark) :=
  ⟨⟨_, rfl⟩, fun _ _ h => h, fun _ _ h => h⟩

theorem operands_subset (body : LineBody) : ∀ r ∈ body.operands, r ∈ body.valueRefs := by
  cases body <;> simp [LineBody.operands, LineBody.valueRefs]

/-- What a line has to meet. -/
structure Acceptable (w : Writer) (body : LineBody) (mark : Bool) : Prop where
  values : ∀ r ∈ body.valueRefs, IsValue w.doc r
  states : ∀ r ∈ body.stateRefs, IsState w.doc r
  input : body.kind = .input → mark = true
  operands : ∀ r ∈ body.operands, w.Marked r → mark = true
  init : ∀ target value, body = .init target value →
    target ∉ w.initialized ∧ value < target ∧ ¬ w.Marked value
  next : ∀ target value, body = .next target value → target ∉ w.transitioned
  const : ∀ b, body = .const b → w.constantOf b = 0

section Push
variable {w : Writer} {body : LineBody} {mark : Bool}

theorem Inv.marked_push (h : w.Inv) {n : Nat} (hn : n < w.nodes.length) :
    (w.push body mark).Marked n ↔ w.Marked n := by
  unfold Marked push
  rw [List.getD_append _ _ _ _ (by rw [h.marksLength]; exact hn)]

theorem Inv.marked_push_new (h : w.Inv) :
    (w.push body mark).Marked w.nodes.length ↔ mark = true := by
  unfold Marked push
  rw [List.getD_append_right _ _ _ _ (by rw [h.marksLength]), h.marksLength, Nat.sub_self]
  rfl

theorem Inv.lt_length (h : w.Inv) {n : Nat} (hn : IsValue w.doc n) : n < w.nodes.length := by
  have := h.wf.value_le hn
  have := h.length
  omega

theorem nodeLines_push : nodeLines (w.push body mark).doc =
    nodeLines w.doc ++ [(w.nodes.length, body)] := nodeLines_node _ _

theorem mem_nodeLines_push {node : Nat × LineBody} :
    node ∈ nodeLines (w.push body mark).doc ↔
      node ∈ nodeLines w.doc ∨ node = (w.nodes.length, body) := by
  rw [nodeLines_push, List.mem_append, List.mem_singleton]

theorem constantOf_push (b : Bool) : (w.push body mark).constantOf b =
    if body = .const b then w.nodes.length else w.constantOf b := by
  cases b <;> rfl

theorem Inv.constants_push (h : w.Inv) (hconst : ∀ b, body = .const b → w.constantOf b = 0)
    (b : Bool) (n : Nat) : (n, .const b) ∈ nodeLines (w.push body mark).doc ↔
      n = (w.push body mark).constantOf b ∧ n ≠ 0 := by
  rw [mem_nodeLines_push, h.constants, constantOf_push, Prod.mk.injEq]
  have hlen := h.length
  split
  · next hbody =>
    rw [hconst b hbody]
    refine ⟨fun hmem => ?_, fun hn => .inr ⟨hn.1, hbody.symm⟩⟩
    rcases hmem with ⟨hn, hzero⟩ | ⟨hn, -⟩
    · exact absurd hn hzero
    · exact ⟨hn, by omega⟩
  · next hbody => exact or_iff_left fun hnew => hbody hnew.2.symm

/-- The targets of one kind of line stay distinct. -/
theorem targets_push {targetOf : LineBody → Option Nat} {assigned : List Nat}
    (hmem : ∀ n, n ∈ assigned ↔ n ∈ (nodeLines w.doc).filterMap fun node => targetOf node.2)
    (hnodup : ((nodeLines w.doc).filterMap fun node => targetOf node.2).Nodup)
    (hnew : ∀ n, targetOf body = some n → n ∉ assigned) :
    ((nodeLines (w.push body mark).doc).filterMap fun node => targetOf node.2).Nodup ∧
    ∀ n, n ∈ (targetOf body).toList ++ assigned ↔
      n ∈ (nodeLines (w.push body mark).doc).filterMap fun node => targetOf node.2 := by
  have hlast : [(w.nodes.length, body)].filterMap (fun node => targetOf node.2) =
      (targetOf body).toList := by
    cases htarget : targetOf body <;> simp [htarget]
  rw [nodeLines_push, List.filterMap_append, hlast]
  refine ⟨List.nodup_append'.mpr ⟨hnodup, ?_, ?_⟩, fun n => ?_⟩
  · cases targetOf body <;> simp
  · intro n hold hlastMem
    cases htarget : targetOf body with
    | none =>
      rw [htarget] at hlastMem
      exact absurd hlastMem List.not_mem_nil
    | some m =>
      rw [htarget] at hlastMem
      rw [List.mem_singleton.mp hlastMem] at hold
      exact hnew m htarget ((hmem m).mpr hold)
  · rw [List.mem_append, List.mem_append, hmem, or_comm]

theorem inv_push (h : w.Inv) (ha : Acceptable w body mark) : (w.push body mark).Inv := by
  have hlen := h.length
  obtain ⟨hinits, hinitialized⟩ := @targets_push _ body mark _ _ h.initialized
    h.wf.inits fun n hn => by
      cases body with
      | init target value => exact Option.some.inj hn ▸ (ha.init target value rfl).1
      | _ => cases hn
  obtain ⟨hnexts, htransitioned⟩ := @targets_push _ body mark _ _ h.transitioned
    h.wf.nexts fun n hn => by
      cases body with
      | next target value => exact Option.some.inj hn ▸ ha.next target value rfl
      | _ => cases hn
  have hinputs : ∀ i symbol, (i, .input symbol) ∈ nodeLines (w.push body mark).doc →
      (w.push body mark).Marked i := by
    intro i symbol hi
    rcases mem_nodeLines_push.mp hi with hold | hnew
    · have hbounds := h.wf.id_bounds hold
      exact (h.marked_push (by omega)).mpr (h.inputs i symbol hold)
    · obtain ⟨rfl, rfl⟩ := Prod.mk.inj hnew
      exact h.marked_push_new.mpr (ha.input rfl)
  have hmarks : ∀ n m, NodeDocument.RefersTo LineBody.operands
      (nodeLines (w.push body mark).doc) n m →
      (w.push body mark).Marked m → (w.push body mark).Marked n := by
    intro n m ⟨other, hother, hm⟩ hmarked
    rcases mem_nodeLines_push.mp hother with hold | hnew
    · have hbounds := h.wf.id_bounds hold
      have hlt := (h.wf.valueRefs _ hold m (operands_subset other m hm)).1
      rw [h.marked_push (by omega)] at hmarked
      rw [h.marked_push (by omega)]
      exact h.marks n m ⟨other, hold, hm⟩ hmarked
    · obtain ⟨rfl, rfl⟩ := Prod.mk.inj hnew
      have hvalue := ha.values m (operands_subset _ m hm)
      rw [h.marked_push (h.lt_length hvalue)] at hmarked
      exact h.marked_push_new.mpr (ha.operands m hm hmarked)
  have hinitMarks : ∀ id target value,
      (id, .init target value) ∈ nodeLines (w.push body mark).doc →
      value < target ∧ ¬ (w.push body mark).Marked value := by
    intro id target value hline
    rcases mem_nodeLines_push.mp hline with hold | hnew
    · have hvalue := (h.wf.valueRefs _ hold value (List.mem_singleton_self value)).2
      rw [h.marked_push (h.lt_length hvalue)]
      exact ⟨(h.wf.initValues id target value hold).1, h.initMarks id target value hold⟩
    · obtain ⟨rfl, rfl⟩ := Prod.mk.inj hnew
      have hvalue := ha.values value (List.mem_singleton_self value)
      rw [h.marked_push (h.lt_length hvalue)]
      exact (ha.init target value rfl).2
  have hwf : WellFormed (w.push body mark).doc := by
    refine ⟨mem_nodeLines_push.mpr (.inl h.wf.sort), ?_, fun node hnode r hr => ?_,
      fun node hnode r hr => ?_, hinits, hnexts,
      fun id target value hline => ⟨(hinitMarks id target value hline).1, fun hreads => ?_⟩,
      fun line _ => newline_line line⟩
    · rw [nodeLines_push, List.map_append, h.wf.ids, List.length_append, List.length_singleton,
        List.range'_1_concat, hlen, Nat.add_comm 1]
      rfl
    · rcases mem_nodeLines_push.mp hnode with hold | rfl
      · obtain ⟨hlt, hvalue⟩ := h.wf.valueRefs node hold r hr
        exact ⟨hlt, hvalue.append⟩
      · exact ⟨h.lt_length (ha.values r hr), (ha.values r hr).append⟩
    · rcases mem_nodeLines_push.mp hnode with hold | rfl
      · obtain ⟨hlt, hstate⟩ := h.wf.stateRefs node hold r hr
        exact ⟨hlt, hstate.append⟩
      · obtain ⟨symbol, hsymbol⟩ := ha.states r hr
        exact ⟨h.lt_length ⟨_, hsymbol, nofun⟩, (ha.states r hr).append⟩
    · obtain ⟨i, symbol, hi, hreach⟩ := hreads
      exact (hinitMarks id target value hline).2
        (NodeDocument.flagged_of_reaches _ hmarks hreach (hinputs i symbol hi))
  have hgrow := grows_push w body mark
  refine ⟨hwf, ?_, ?_, ?_, fun node hnode => ?_, hinputs,
    fun id target value hline => (hinitMarks id target value hline).2, hmarks, hinitialized,
    htransitioned, h.constants_push ha.const, fun s n hn => (h.bindings s n hn).append,
    fun e n hn => h.denotes_grow hwf hgrow (h.expressions e n hn)⟩
  · rw [nodeLines_push]
    simp [push, hlen]
  · simp [push, h.marksLength]
  · rw [push, List.getElem?_append_left (by omega)]
    exact h.zero
  · rcases mem_nodeLines_push.mp hnode with hold | rfl
    · have hbounds := h.wf.id_bounds hold
      rw [push, List.getElem?_append_left (by omega)]
      exact h.kinds node hold
    · simp [push]

end Push

end Writer

end KeplerFormal.Btor2Writer
