import Mathlib.Algebra.GroupWithZero.Nat
import Mathlib.Data.List.Basic
import Mathlib.Data.Nat.Log

namespace SVF.Util.NodeIDs

def UINT_MAX : ℕ := 2 ^ 32 - 1

inductive Strategy
  | DENSE
  | REVERSE_DENSE
  | SEQ
  | DBUG
  deriving DecidableEq

structure NodeIDAllocator where
  numObjects : ℕ
  numValues : ℕ
  numSymbols : ℕ
  numNodes : ℕ
  strategy : Strategy

def blackHoleObjectId : ℕ := 0

def constantObjectId : ℕ := 1

def blackHolePointerId : ℕ := 2

def nullPointerId : ℕ := 3

def specials : List ℕ := [blackHoleObjectId, constantObjectId, blackHolePointerId, nullPointerId]

def incr (n : ℕ) : ℕ := (n + 1) % 2 ^ 32

namespace NodeIDAllocator

def new (strategy : Strategy) : NodeIDAllocator := ⟨4, 4, 4, 4, strategy⟩

def increaseNumOfObjAndNodes (a : NodeIDAllocator) : NodeIDAllocator :=
  { a with numObjects := incr a.numObjects, numNodes := incr a.numNodes }

def allocateObjectId (a : NodeIDAllocator) : NodeIDAllocator × ℕ :=
  (a.increaseNumOfObjAndNodes, match a.strategy with
    | .DENSE => a.numObjects
    | .REVERSE_DENSE => UINT_MAX - a.numObjects
    | .SEQ | .DBUG => a.numNodes)

/-- The least power of ten that is not below the number of symbols and the limit. -/
def gepMultiplier (a : NodeIDAllocator) (maxFieldLimit : ℕ) : ℕ :=
  10 ^ Nat.clog 10 (max a.numSymbols maxFieldLimit)

def allocateGepObjectId (a : NodeIDAllocator) (base offset : UInt32) (maxFieldLimit : ℕ) :
    NodeIDAllocator × ℕ :=
  (a.increaseNumOfObjAndNodes, match a.strategy with
    | .DENSE => a.numObjects
    | .REVERSE_DENSE => UINT_MAX - a.numObjects
    | .SEQ => a.numNodes
    | .DBUG => ((offset.toNat + 1) * a.gepMultiplier maxFieldLimit + base.toNat) % 2 ^ 32)

def allocateValueId (a : NodeIDAllocator) : NodeIDAllocator × ℕ :=
  ({ a with numValues := incr a.numValues, numNodes := incr a.numNodes }, match a.strategy with
    | .DENSE => UINT_MAX - a.numValues
    | .REVERSE_DENSE => a.numValues
    | .SEQ | .DBUG => a.numNodes)

def endSymbolAllocation (a : NodeIDAllocator) : NodeIDAllocator := { a with numSymbols := a.numNodes }

end NodeIDAllocator

section

inductive Symbol
  | object
  | value
  deriving DecidableEq

inductive Call
  | symbol (kind : Symbol)
  | gep (base offset : UInt32)
  deriving DecidableEq

variable (maxFieldLimit : ℕ)

def allocate (a : NodeIDAllocator) : Call → NodeIDAllocator × ℕ
  | .symbol .object => a.allocateObjectId
  | .symbol .value => a.allocateValueId
  | .gep base offset => a.allocateGepObjectId base offset maxFieldLimit

/-- The allocator, and the calls with the ids that they were given, the last one first. -/
structure State where
  allocator : NodeIDAllocator
  given : List (Call × ℕ)

def State.call (s : State) (c : Call) : State :=
  let r := allocate maxFieldLimit s.allocator c
  ⟨r.1, (c, r.2) :: s.given⟩

def State.calls (s : State) (cs : List Call) : State := cs.foldl (State.call maxFieldLimit) s

/-- The symbol-table builder allocates symbols, then fields and further nodes are allocated. -/
def build (strategy : Strategy) (symbols : List Symbol) (later : List Call) : State :=
  let s := State.calls maxFieldLimit ⟨.new strategy, []⟩ (symbols.map .symbol)
  State.calls maxFieldLimit ⟨s.allocator.endSymbolAllocation, s.given⟩ later

/-- One id is given twice only for one field, and no special id is given. -/
def Distinct (given : List (Call × ℕ)) : Prop :=
  given.Pairwise (fun p q => p.2 = q.2 → ∃ base offset, p.1 = .gep base offset ∧ q.1 = .gep base offset) ∧
    ∀ p ∈ given, p.2 ∉ specials

def Condition (s : State) (c : Call) : Prop :=
  let m := s.allocator.gepMultiplier maxFieldLimit
  match s.allocator.strategy, c with
  | .DENSE, _ | .REVERSE_DENSE, _ => s.allocator.numObjects + s.allocator.numValues < 2 ^ 32
  | .SEQ, _ => s.allocator.numNodes < UINT_MAX
  | .DBUG, .symbol _ => s.allocator.numNodes < UINT_MAX ∧ ∀ base offset,
      .gep base offset ∈ s.given.map Prod.fst → base.toNat = s.allocator.numNodes % m →
        offset.toNat + 1 ≠ s.allocator.numNodes / m
  | .DBUG, .gep base offset => s.allocator.numNodes < UINT_MAX ∧ base.toNat < m ∧
      (offset.toNat + 1) * m + base.toNat < 2 ^ 32 ∧
        s.allocator.numNodes ≤ (offset.toNat + 1) * m + base.toNat

def Meets (s : State) : List Call → Prop
  | [] => True
  | c :: cs => Condition maxFieldLimit s c ∧ Meets (s.call maxFieldLimit c) cs

def BuildMeets (strategy : Strategy) (symbols : List Symbol) (later : List Call) : Prop :=
  let s := State.calls maxFieldLimit ⟨.new strategy, []⟩ (symbols.map .symbol)
  Meets maxFieldLimit ⟨.new strategy, []⟩ (symbols.map .symbol) ∧
    Meets maxFieldLimit ⟨s.allocator.endSymbolAllocation, s.given⟩ later

end

section

variable {maxFieldLimit : ℕ}

theorem incr_of_lt {n : ℕ} (h : n < UINT_MAX) : incr n = n + 1 := by
  rw [UINT_MAX] at h
  exact Nat.mod_eq_of_lt (by omega)

def Located (maxFieldLimit : ℕ) (a : NodeIDAllocator) (p : Call × ℕ) : Prop :=
  match a.strategy with
  | .DENSE => p.2 < a.numObjects ∨ 2 ^ 32 ≤ p.2 + a.numValues ∧ p.2 + 4 < 2 ^ 32
  | .REVERSE_DENSE => p.2 < a.numValues ∨ 2 ^ 32 ≤ p.2 + a.numObjects ∧ p.2 + 4 < 2 ^ 32
  | .SEQ => p.2 < a.numNodes
  | .DBUG => match p.1 with
    | .symbol _ => p.2 < a.numNodes
    | .gep base offset => base.toNat < a.gepMultiplier maxFieldLimit ∧
        p.2 = (offset.toNat + 1) * a.gepMultiplier maxFieldLimit + base.toNat

/-- The counters do not wrap around, and the two halves of the dense strategies do not meet. -/
def Counted (a : NodeIDAllocator) : Prop :=
  match a.strategy with
  | .DENSE | .REVERSE_DENSE => 4 ≤ a.numObjects ∧ 4 ≤ a.numValues ∧ a.numObjects + a.numValues ≤ 2 ^ 32
  | .SEQ | .DBUG => 4 ≤ a.numNodes ∧ a.numNodes < 2 ^ 32

structure Inv (maxFieldLimit : ℕ) (s : State) : Prop where
  counted : Counted s.allocator
  located : ∀ p ∈ s.given, 4 ≤ p.2 ∧ Located maxFieldLimit s.allocator p
  distinct : Distinct s.given

structure Allocates (maxFieldLimit : ℕ) (s : State) (c : Call) : Prop where
  counted : Counted (allocate maxFieldLimit s.allocator c).1
  special : 4 ≤ (allocate maxFieldLimit s.allocator c).2
  located : Located maxFieldLimit (allocate maxFieldLimit s.allocator c).1
    (c, (allocate maxFieldLimit s.allocator c).2)
  keeps : ∀ p : Call × ℕ, Located maxFieldLimit s.allocator p →
    Located maxFieldLimit (allocate maxFieldLimit s.allocator c).1 p
  fresh : ∀ p ∈ s.given, (allocate maxFieldLimit s.allocator c).2 = p.2 →
    ∃ base offset, c = .gep base offset ∧ p.1 = .gep base offset

theorem Allocates.inv {s : State} {c : Call} (h : Inv maxFieldLimit s)
    (ha : Allocates maxFieldLimit s c) : Inv maxFieldLimit (s.call maxFieldLimit c) where
  counted := ha.counted
  located p hp := by
    rcases List.mem_cons.mp hp with rfl | hp
    · exact ⟨ha.special, ha.located⟩
    · exact ⟨(h.located p hp).1, ha.keeps p (h.located p hp).2⟩
  distinct := by
    refine ⟨List.pairwise_cons.mpr ⟨ha.fresh, h.distinct.1⟩, fun p hp => ?_⟩
    rcases List.mem_cons.mp hp with rfl | hp
    · have hspecial := ha.special
      simp only [specials, blackHoleObjectId, constantObjectId, blackHolePointerId, nullPointerId,
        List.mem_cons, List.not_mem_nil, or_false]
      omega
    · exact h.distinct.2 p hp

theorem allocates_dense {s : State} {c : Call} (h : Inv maxFieldLimit s)
    (hs : s.allocator.strategy = .DENSE ∨ s.allocator.strategy = .REVERSE_DENSE)
    (hc : s.allocator.numObjects + s.allocator.numValues < 2 ^ 32) : Allocates maxFieldLimit s c := by
  obtain ⟨⟨o, v, sy, n, strategy⟩, given⟩ := s
  obtain ⟨hcounted, hlocated, -⟩ := h
  dsimp only at hs hc
  have hcount : 4 ≤ o ∧ 4 ≤ v := by
    rcases hs with rfl | rfl <;> exact ⟨hcounted.1, hcounted.2.1⟩
  have ho : incr o = o + 1 := incr_of_lt (by rw [UINT_MAX]; omega)
  have hv : incr v = v + 1 := incr_of_lt (by rw [UINT_MAX]; omega)
  have hfresh : ∀ id, (∀ p : Call × ℕ, Located maxFieldLimit ⟨o, v, sy, n, strategy⟩ p → id ≠ p.2) →
      ∀ p ∈ given, id = p.2 → ∃ base offset, c = .gep base offset ∧ p.1 = .gep base offset :=
    fun id hne p hp heq => absurd heq (hne p (hlocated p hp).2)
  rcases hs with rfl | rfl <;> rcases c with (_ | _) | ⟨b, f⟩ <;> constructor <;>
    simp only [allocate, NodeIDAllocator.allocateObjectId, NodeIDAllocator.allocateValueId,
      NodeIDAllocator.allocateGepObjectId, NodeIDAllocator.increaseNumOfObjAndNodes, Counted, Located,
      ho, hv, UINT_MAX] <;>
    first
    | omega
    | exact fun p hp => by omega
    | exact hfresh _ fun p hp => by simp only [Located] at hp; omega

theorem allocates_seq {s : State} {c : Call} (h : Inv maxFieldLimit s)
    (hs : s.allocator.strategy = .SEQ) (hc : s.allocator.numNodes < UINT_MAX) :
    Allocates maxFieldLimit s c := by
  obtain ⟨⟨o, v, sy, n, strategy⟩, given⟩ := s
  obtain ⟨hcounted, hlocated, -⟩ := h
  dsimp only at hs hc
  subst hs
  simp only [Counted] at hcounted
  have hn : incr n = n + 1 := incr_of_lt hc
  rw [UINT_MAX] at hc
  have hfresh : ∀ p ∈ given, n = p.2 → ∃ base offset, c = .gep base offset ∧ p.1 = .gep base offset :=
    fun p hp heq => absurd heq (Nat.ne_of_gt (hlocated p hp).2)
  rcases c with (_ | _) | ⟨b, f⟩ <;> constructor <;>
    simp only [allocate, NodeIDAllocator.allocateObjectId, NodeIDAllocator.allocateValueId,
      NodeIDAllocator.allocateGepObjectId, NodeIDAllocator.increaseNumOfObjAndNodes, Counted, Located,
      hn] <;> omega

theorem base_eq {m b f n : ℕ} (hb : b < m) (h : n = (f + 1) * m + b) : b = n % m ∧ f + 1 = n / m := by
  subst h
  constructor
  · rw [Nat.add_comm, Nat.add_mul_mod_self_right, Nat.mod_eq_of_lt hb]
  · rw [Nat.add_comm ((f + 1) * m) b, Nat.add_mul_div_right _ _ (Nat.zero_lt_of_lt hb),
      Nat.div_eq_of_lt hb, Nat.zero_add]

/-- The counter steps over the numbers of the fields, or has not reached them. -/
theorem allocates_dbug_symbol {s : State} {kind : Symbol} (h : Inv maxFieldLimit s)
    (hs : s.allocator.strategy = .DBUG)
    (hc : Condition maxFieldLimit s (.symbol kind)) : Allocates maxFieldLimit s (.symbol kind) := by
  obtain ⟨⟨o, v, sy, n, strategy⟩, given⟩ := s
  obtain ⟨hcounted, hlocated, -⟩ := h
  dsimp only at hs
  subst hs
  simp only [Counted] at hcounted
  obtain ⟨hlt, hfields⟩ := hc
  dsimp only at hlt hfields
  have hn : incr n = n + 1 := incr_of_lt hlt
  rw [UINT_MAX] at hlt
  have hfresh : ∀ p ∈ given, n = p.2 →
      ∃ base offset, Call.symbol kind = .gep base offset ∧ p.1 = .gep base offset := by
    rintro ⟨c, id⟩ hp heq
    have hloc := (hlocated _ hp).2
    cases c with
    | symbol kind' => exact absurd heq (Nat.ne_of_gt hloc)
    | gep b f =>
        obtain ⟨hb, hid⟩ := hloc
        obtain ⟨hbase, hoffset⟩ := base_eq hb (heq.trans hid)
        exact absurd hoffset (hfields b f (List.mem_map_of_mem hp) hbase)
  have hkeeps : ∀ (a : NodeIDAllocator), a.strategy = .DBUG → a.numSymbols = sy → a.numNodes = n + 1 →
      ∀ p : Call × ℕ, Located maxFieldLimit ⟨o, v, sy, n, .DBUG⟩ p → Located maxFieldLimit a p := by
    rintro ⟨o', v', sy', n', strategy'⟩ hs hsy hnode ⟨c, id⟩ hp
    dsimp only at hs hsy hnode
    subst hs hsy hnode
    cases c with
    | symbol kind' => exact Nat.lt_succ_of_lt hp
    | gep b f => exact hp
  cases kind with
  | object =>
      refine ⟨?_, hcounted.1, ?_, hkeeps _ rfl rfl hn, hfresh⟩
      · simp only [allocate, NodeIDAllocator.allocateObjectId, NodeIDAllocator.increaseNumOfObjAndNodes,
          Counted, hn]
        omega
      · change n < incr n
        omega
  | value =>
      refine ⟨?_, hcounted.1, ?_, hkeeps _ rfl rfl hn, hfresh⟩
      · simp only [allocate, NodeIDAllocator.allocateValueId, Counted, hn]
        omega
      · change n < incr n
        omega

theorem allocates_dbug_gep {s : State} {base offset : UInt32} (h : Inv maxFieldLimit s)
    (hs : s.allocator.strategy = .DBUG)
    (hc : Condition maxFieldLimit s (.gep base offset)) :
    Allocates maxFieldLimit s (.gep base offset) := by
  obtain ⟨⟨o, v, sy, n, strategy⟩, given⟩ := s
  obtain ⟨hcounted, hlocated, -⟩ := h
  dsimp only at hs
  subst hs
  simp only [Counted] at hcounted
  obtain ⟨hlt, hbase, hsmall, hpassed⟩ := hc
  dsimp only at hlt hpassed
  have hn : incr n = n + 1 := incr_of_lt hlt
  rw [UINT_MAX] at hlt
  have hid : (allocate maxFieldLimit ⟨o, v, sy, n, .DBUG⟩ (.gep base offset)).2 =
      (offset.toNat + 1) * NodeIDAllocator.gepMultiplier ⟨o, v, sy, n, .DBUG⟩ maxFieldLimit + base.toNat :=
    Nat.mod_eq_of_lt hsmall
  refine ⟨?_, hid ▸ hcounted.1.trans hpassed, ⟨hbase, hid⟩, ?_, ?_⟩
  · simp only [allocate, NodeIDAllocator.allocateGepObjectId, NodeIDAllocator.increaseNumOfObjAndNodes,
      Counted, hn]
    omega
  · rintro ⟨c, id⟩ hp
    cases c with
    | symbol kind =>
        have hlt' : id < n := hp
        change id < incr n
        omega
    | gep b f => exact hp
  · rintro ⟨c, id⟩ hp heq
    have hloc := (hlocated _ hp).2
    cases c with
    | symbol kind =>
        have hlt' : id < n := hloc
        rw [hid] at heq
        exact absurd heq (Nat.ne_of_gt (hlt'.trans_le hpassed))
    | gep b f =>
        obtain ⟨hb, hid'⟩ := hloc
        obtain ⟨hmod, hdiv⟩ := base_eq hbase (heq.symm.trans hid)
        obtain ⟨hmod', hdiv'⟩ := base_eq hb hid'
        have hb' : base = b := UInt32.toNat_inj.mp (hmod.trans hmod'.symm)
        have hf : offset = f := UInt32.toNat_inj.mp (Nat.succ.inj (hdiv.trans hdiv'.symm))
        exact ⟨base, offset, rfl, by rw [hb', hf]⟩

theorem inv_call {s : State} {c : Call} (h : Inv maxFieldLimit s) (hc : Condition maxFieldLimit s c) :
    Inv maxFieldLimit (s.call maxFieldLimit c) := by
  apply Allocates.inv h
  cases hs : s.allocator.strategy with
  | DENSE => exact allocates_dense h (.inl hs) (by simpa only [Condition, hs] using hc)
  | REVERSE_DENSE => exact allocates_dense h (.inr hs) (by simpa only [Condition, hs] using hc)
  | SEQ => exact allocates_seq h hs (by simpa only [Condition, hs] using hc)
  | DBUG =>
      cases c with
      | symbol kind => exact allocates_dbug_symbol h hs hc
      | gep base offset => exact allocates_dbug_gep h hs hc

theorem inv_calls {s : State} {cs : List Call} (h : Inv maxFieldLimit s)
    (hmeets : Meets maxFieldLimit s cs) : Inv maxFieldLimit (s.calls maxFieldLimit cs) := by
  induction cs generalizing s with
  | nil => exact h
  | cons c cs ih => exact ih (inv_call h hmeets.1) hmeets.2

theorem inv_new (strategy : Strategy) : Inv maxFieldLimit ⟨.new strategy, []⟩ where
  counted := by cases strategy <;> simp [Counted, NodeIDAllocator.new]
  located p hp := absurd hp List.not_mem_nil
  distinct := ⟨.nil, fun p hp => absurd hp List.not_mem_nil⟩

/-- The end of the symbols changes the multiplier only, and no field is there yet. -/
theorem inv_endSymbolAllocation {s : State} (h : Inv maxFieldLimit s)
    (hsymbols : ∀ p ∈ s.given, ∃ kind, p.1 = .symbol kind) :
    Inv maxFieldLimit ⟨s.allocator.endSymbolAllocation, s.given⟩ where
  counted := h.counted
  located p hp := by
    obtain ⟨h4, hloc⟩ := h.located p hp
    obtain ⟨kind, hkind⟩ := hsymbols p hp
    obtain ⟨c, id⟩ := p
    dsimp only at hkind
    subst hkind
    exact ⟨h4, hloc⟩
  distinct := h.distinct

theorem given_symbols (s : State) (hs : ∀ p ∈ s.given, ∃ kind, p.1 = .symbol kind)
    (symbols : List Symbol) :
    ∀ p ∈ (s.calls maxFieldLimit (symbols.map .symbol)).given, ∃ kind, p.1 = .symbol kind := by
  induction symbols generalizing s with
  | nil => exact hs
  | cons kind symbols ih =>
      refine ih (s.call maxFieldLimit (.symbol kind)) fun p hp => ?_
      rcases List.mem_cons.mp hp with rfl | hp
      · exact ⟨kind, rfl⟩
      · exact hs p hp

/-- The ids of a run of the builder whose calls meet the condition are distinct. -/
theorem build_distinct {strategy : Strategy} {symbols : List Symbol} {later : List Call}
    (hmeets : BuildMeets maxFieldLimit strategy symbols later) :
    Distinct (build maxFieldLimit strategy symbols later).given := by
  have hsymbols := inv_calls (inv_new strategy) hmeets.1
  have hend := inv_endSymbolAllocation hsymbols
    (given_symbols ⟨.new strategy, []⟩ (fun p hp => absurd hp List.not_mem_nil) symbols)
  exact (inv_calls hend hmeets.2).distinct

theorem build_distinct_field :
    Distinct (build 8 .DBUG [.object] [.gep 4 0, .symbol .value, .gep 4 0]).given := by
  refine build_distinct ⟨⟨⟨by decide, fun base offset h => absurd h List.not_mem_nil⟩, trivial⟩,
    ?_, ⟨by decide, fun base offset h hbase => ?_⟩, ?_, trivial⟩
  · exact ⟨by decide, by decide +kernel, by decide +kernel, by decide +kernel⟩
  · have hfield : base = 4 := by
      have hcases : Call.gep base offset ∈ [Call.gep 4 0, Call.symbol .object] := h
      simp only [List.mem_cons, Call.gep.injEq, List.not_mem_nil, or_false, reduceCtorEq] at hcases
      exact hcases.1
    subst hfield
    exact absurd hbase (by decide +kernel)
  · exact ⟨by decide, by decide +kernel, by decide +kernel, by decide +kernel⟩

/-- The counter reaches the number of a field. -/
theorem build_clash : ¬ ∀ (maxFieldLimit : ℕ) (strategy : Strategy) (symbols : List Symbol)
    (later : List Call), Distinct (build maxFieldLimit strategy symbols later).given := by
  intro h
  have hdistinct := (h 8 .DBUG [.object] (.gep 4 0 :: List.replicate 9 (.symbol .value))).1
  have hid : ∃ given, (build 8 .DBUG [.object] (.gep 4 0 :: List.replicate 9 (.symbol .value))).given =
      (.symbol .value, 14) :: given ∧ (.gep 4 0, 14) ∈ given := ⟨_, rfl, by decide +kernel⟩
  obtain ⟨given, heq, hmem⟩ := hid
  rw [heq] at hdistinct
  obtain ⟨base, offset, hvalue, -⟩ := List.rel_of_pairwise_cons hdistinct hmem rfl
  cases hvalue

end

end SVF.Util.NodeIDs
