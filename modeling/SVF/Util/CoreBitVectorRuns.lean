import SVF.Util.CoreBitVectorScans

namespace SVF.Util.CoreBitVectors

open CoreBitVector

section

inductive Op (ι : Type)
  | set (x : ι) (bit : UInt32)
  | reset (x : ι) (bit : UInt32)
  | testAndSet (x : ι) (bit : UInt32)
  | test (x : ι) (bit : UInt32)
  | orAssign (x rhs : ι)
  | andAssign (x rhs : ι)
  | minusAssign (x rhs : ι)
  | intersectWithComplement (x rhs : ι)
  | intersectWithComplementOf (x lhs rhs : ι)
  | contains (x rhs : ι)
  | intersects (x rhs : ι)
  | eq (x rhs : ι)
  | empty (x : ι)
  | count (x : ι)
  | iterate (x : ι)
  | assign (x rhs : ι)
  | clear (x : ι)

inductive Result
  | none
  | flag (b : Bool)
  | number (n : ℕ)
  | ids (l : List ℕ)
  deriving DecidableEq

variable {ι : Type} [DecidableEq ι]

abbrev Vectors (ι : Type) := ι → CoreBitVector

abbrev Sets (ι : Type) := ι → Finset ℕ

def Op.exec (s : Vectors ι) : Op ι → Vectors ι × Result
  | .set x bit => (Function.update s x ((s x).set bit), .none)
  | .reset x bit => (Function.update s x ((s x).reset bit), .none)
  | .testAndSet x bit =>
      let r := (s x).testAndSet bit
      (Function.update s x r.1, .flag r.2)
  | .test x bit => (s, .flag ((s x).test bit))
  | .orAssign x rhs =>
      let r := (s x).orAssign (x = rhs) (s rhs)
      (Function.update s x r.1, .flag r.2)
  | .andAssign x rhs =>
      let r := (s x).andAssign (s rhs)
      (Function.update s x r.1, .flag r.2)
  | .minusAssign x rhs =>
      let r := (s x).minusAssign (s rhs)
      (Function.update s x r.1, .flag r.2)
  | .intersectWithComplement x rhs =>
      let r := (s x).intersectWithComplement (s rhs)
      (Function.update s x r.1, .flag r.2)
  | .intersectWithComplementOf x lhs rhs =>
      let s := Function.update s x (s lhs)
      (Function.update s x ((s x).intersectWithComplement (s rhs)).1, .none)
  | .contains x rhs => (s, .flag ((s x).contains (s rhs)))
  | .intersects x rhs => (s, .flag ((s x).intersects (s rhs)))
  | .eq x rhs => (s, .flag ((s x).eq (s rhs)))
  | .empty x => (s, .flag (s x).empty)
  | .count x => (s, .number (s x).count.toNat)
  | .iterate x => (s, .ids (s x).elements)
  | .assign x rhs => (Function.update s x (s rhs), .none)
  | .clear x => (Function.update s x .new, .none)

def Op.spec (s : Sets ι) : Op ι → Sets ι × Result
  | .set x bit => (Function.update s x (insert bit.toNat (s x)), .none)
  | .reset x bit => (Function.update s x ((s x).erase bit.toNat), .none)
  | .testAndSet x bit => (Function.update s x (insert bit.toNat (s x)), .flag (bit.toNat ∉ s x))
  | .test x bit => (s, .flag (bit.toNat ∈ s x))
  | .orAssign x rhs => (Function.update s x (s x ∪ s rhs), .flag (s x ∪ s rhs ≠ s x))
  | .andAssign x rhs => (Function.update s x (s x ∩ s rhs), .flag (s x ∩ s rhs ≠ s x))
  | .minusAssign x rhs | .intersectWithComplement x rhs =>
      (Function.update s x (s x \ s rhs), .flag (s x \ s rhs ≠ s x))
  | .intersectWithComplementOf x lhs rhs => (Function.update s x (s lhs \ s rhs), .none)
  | .contains x rhs => (s, .flag (s rhs ⊆ s x))
  | .intersects x rhs => (s, .flag (s x ∩ s rhs ≠ ∅))
  | .eq x rhs => (s, .flag (s x = s rhs))
  | .empty x => (s, .flag (s x = ∅))
  | .count x => (s, .number (s x).card)
  | .iterate x => (s, .ids (s x).sort)
  | .assign x rhs => (Function.update s x (s rhs), .none)
  | .clear x => (Function.update s x ∅, .none)

def run (ops : List (Op ι)) (s : Vectors ι) : Vectors ι := ops.foldl (fun s op => (op.exec s).1) s

def sets (s : Vectors ι) : Sets ι := fun x => (s x).contents

/-- Every operation of the sequence returns what the operation on sets returns, and leaves vectors
that hold its sets. -/
def Agrees : List (Op ι) → Vectors ι → Sets ι → Prop
  | [], _, _ => True
  | op :: ops, s, S => (op.exec s).2 = (op.spec S).2 ∧ sets (op.exec s).1 = (op.spec S).1 ∧
      Agrees ops (op.exec s).1 (op.spec S).1

/-- The condition on an operation, which reads the vectors before it: `|=` does not fill a vector
without words from an empty one with words, the target of `intersectWithComplement` is its
right-hand side only where that holds the left-hand side, and `count` is not asked of all ids. -/
def Condition (s : Vectors ι) : Op ι → Prop
  | .orAssign x rhs =>
      ¬ ((s x).words.length = 0 ∧ (s rhs).words.length ≠ 0 ∧ (s rhs).empty = true)
  | .intersectWithComplementOf x lhs rhs => x = rhs → (s rhs).contains (s lhs) = true
  | .count x => ∃ bit : UInt32, (s x).test bit = false
  | _ => True

def Meets : List (Op ι) → Vectors ι → Prop
  | [], _ => True
  | op :: ops, s => Condition s op ∧ Meets ops (op.exec s).1

end

theorem contents_new : CoreBitVector.new.contents = ∅ := by
  ext n
  simp [not_mem_new]

theorem contents_set (a : CoreBitVector) (bit : UInt32) :
    (a.set bit).contents = insert bit.toNat a.contents := by
  ext n
  rw [mem_contents, mem_set, Finset.mem_insert, mem_contents, or_comm]

theorem contents_reset (a : CoreBitVector) (bit : UInt32) :
    (a.reset bit).contents = a.contents.erase bit.toNat := by
  ext n
  rw [mem_contents, mem_reset, Finset.mem_erase, mem_contents, and_comm]

theorem contents_testAndSet (a : CoreBitVector) (bit : UInt32) :
    (a.testAndSet bit).1.contents = insert bit.toNat a.contents := by
  ext n
  rw [mem_contents, mem_testAndSet, Finset.mem_insert, mem_contents, or_comm]

theorem contents_orAssign {same : Bool} {a rhs : CoreBitVector} (hsame : same = true → rhs = a) :
    (a.orAssign same rhs).1.contents = a.contents ∪ rhs.contents := by
  ext n
  rw [mem_contents, mem_orAssign hsame, Finset.mem_union, mem_contents, mem_contents]

theorem contents_andAssign (a rhs : CoreBitVector) :
    (a.andAssign rhs).1.contents = a.contents ∩ rhs.contents := by
  ext n
  rw [mem_contents, (andAssign_spec a rhs).1, Finset.mem_inter, mem_contents, mem_contents]

theorem contents_minusAssign (a rhs : CoreBitVector) :
    (a.minusAssign rhs).1.contents = a.contents \ rhs.contents := by
  ext n
  rw [mem_contents, (minusAssign_spec a rhs).1, Finset.mem_sdiff, mem_contents, mem_contents]

theorem contents_eq_empty_iff {a : CoreBitVector} : a.contents = ∅ ↔ a.empty = true := by
  rw [empty_iff, Finset.eq_empty_iff_forall_notMem]
  exact forall_congr' fun n => by rw [mem_contents]

theorem contents_subset_iff {a b : CoreBitVector} : b.contents ⊆ a.contents ↔ a.contains b = true := by
  rw [contains_iff, Finset.subset_iff]
  exact forall_congr' fun n => by rw [mem_contents, mem_contents]

theorem flag_eq {a b : CoreBitVector} {flag : Bool} {S : Finset ℕ} (h : b.contents = S)
    (hflag : flag = true ↔ ¬ ∀ n, n ∈ b ↔ n ∈ a) : flag = decide (S ≠ a.contents) := by
  rw [Bool.eq_iff_iff, decide_eq_true_eq, hflag, ← h, ne_eq, contents_eq_iff]

theorem orAssign_flag_iff {same : Bool} {a rhs : CoreBitVector} (hsame : same = true → rhs = a) :
    (a.orAssign same rhs).2 = decide (a.contents ∪ rhs.contents ≠ a.contents) ↔
      ¬ (a.words.length = 0 ∧ rhs.words.length ≠ 0 ∧ rhs.empty = true) := by
  have hset : a.contents ∪ rhs.contents ≠ a.contents ↔ ¬ ∀ n ∈ rhs, n ∈ a := by
    rw [ne_eq, Finset.union_eq_left, contents_subset_iff, contains_iff]
  rw [Bool.eq_iff_iff, orAssign_flag hsame, decide_eq_true_eq, hset]
  split
  · rename_i hnil
    have hnone : ∀ n, n ∉ a := fun n hn => by
      have hlt := lt_of_mem hn
      have hle := hn.1
      omega
    have hempty : (∀ n ∈ rhs, n ∈ a) ↔ rhs.empty = true := by
      rw [empty_iff]
      exact forall_congr' fun n => ⟨fun h hn => hnone n (h hn), fun h hn => absurd hn h⟩
    have hwords : rhs.words.length = 0 → rhs.empty = true := fun h => by
      rw [CoreBitVector.empty, List.eq_nil_of_length_eq_zero h]
      rfl
    rw [hempty]
    tauto
  · rename_i hne
    simp [hne]

theorem card_contents_lt_iff {a : CoreBitVector} :
    a.contents.card < 2 ^ 32 ↔ ∃ bit : UInt32, a.test bit = false := by
  have hsub : a.contents ⊆ Finset.range (2 ^ 32) := fun n hn =>
    Finset.mem_range.mpr (lt_of_mem' (mem_contents.mp hn))
  have hcard := Finset.card_range (2 ^ 32)
  constructor
  · intro hlt
    have hne : a.contents ≠ Finset.range (2 ^ 32) := fun heq => by
      rw [heq, hcard] at hlt
      exact hlt.ne rfl
    obtain ⟨n, hn, hnot⟩ := Finset.exists_of_ssubset (hsub.ssubset_of_ne hne)
    rw [Finset.mem_range] at hn
    refine ⟨.ofNat n, Bool.eq_false_iff.mpr fun htest => hnot ?_⟩
    rw [test_iff, UInt32.toNat_ofNat', Nat.mod_eq_of_lt hn] at htest
    exact mem_contents.mpr htest
  · rintro ⟨bit, hbit⟩
    have hss : a.contents ⊂ Finset.range (2 ^ 32) := by
      refine hsub.ssubset_of_not_subset fun hfull => ?_
      have hmem := mem_contents.mp (hfull (Finset.mem_range.mpr bit.toNat_lt))
      rw [← test_iff, hbit] at hmem
      exact Bool.false_ne_true hmem
    rw [← hcard]
    exact Finset.card_lt_card hss

section

variable {ι : Type} [DecidableEq ι]

theorem sets_update (s : Vectors ι) (x : ι) {a : CoreBitVector} {S : Finset ℕ} (h : a.contents = S) :
    sets (Function.update s x a) = Function.update (sets s) x S :=
  h ▸ Function.comp_update contents s x a

theorem intersectWithComplementOf_iff (s : Vectors ι) (x lhs rhs : ι) :
    sets (Op.exec s (.intersectWithComplementOf x lhs rhs)).1 =
        Function.update (sets s) x (sets s lhs \ sets s rhs) ↔
      (x = rhs → (s rhs).contains (s lhs) = true) := by
  have hexec : (Op.exec s (.intersectWithComplementOf x lhs rhs)).1 = Function.update s x
      ((s lhs).minusAssign (Function.update s x (s lhs) rhs)).1 := by
    simp only [Op.exec, Function.update_idem, Function.update_self, intersectWithComplement]
  rw [hexec, sets_update s x (contents_minusAssign _ _)]
  by_cases hx : x = rhs
  · subst hx
    rw [Function.update_self, Finset.sdiff_self, forall_prop_of_true rfl, ← contents_subset_iff,
      ← Finset.sdiff_eq_empty_iff_subset]
    constructor
    · intro h
      have hempty := congrFun h x
      rw [Function.update_self, Function.update_self] at hempty
      exact hempty.symm
    · intro h
      exact congrArg (Function.update (sets s) x) h.symm
  · rw [Function.update_of_ne (Ne.symm hx)]
    exact iff_of_true rfl fun h => absurd h hx

theorem exec_iff (op : Op ι) (s : Vectors ι) :
    ((op.exec s).2 = (op.spec (sets s)).2 ∧ sets (op.exec s).1 = (op.spec (sets s)).1) ↔
      Condition s op := by
  cases op with
  | set x bit => exact iff_of_true ⟨rfl, sets_update s x (contents_set _ _)⟩ trivial
  | reset x bit => exact iff_of_true ⟨rfl, sets_update s x (contents_reset _ _)⟩ trivial
  | testAndSet x bit =>
      have hflag : ((s x).testAndSet bit).2 = decide (bit.toNat ∉ sets s x) := by
        rw [Bool.eq_iff_iff, testAndSet_flag, decide_eq_true_eq, sets, mem_contents]
      exact iff_of_true ⟨congrArg Result.flag hflag, sets_update s x (contents_testAndSet _ _)⟩ trivial
  | test x bit =>
      have hflag : (s x).test bit = decide (bit.toNat ∈ sets s x) := by
        rw [Bool.eq_iff_iff, test_iff, decide_eq_true_eq, sets, mem_contents]
      exact iff_of_true ⟨congrArg Result.flag hflag, rfl⟩ trivial
  | orAssign x rhs =>
      have hsame : decide (x = rhs) = true → s rhs = s x := fun h => by rw [of_decide_eq_true h]
      have hflag := orAssign_flag_iff hsame
      constructor
      · exact fun h => hflag.mp (Result.flag.inj h.1)
      · exact fun h => ⟨congrArg Result.flag (hflag.mpr h), sets_update s x (contents_orAssign hsame)⟩
  | andAssign x rhs =>
      have hflag := flag_eq (contents_andAssign (s x) (s rhs)) (andAssign_spec _ _).2
      exact iff_of_true ⟨congrArg Result.flag hflag, sets_update s x (contents_andAssign _ _)⟩ trivial
  | minusAssign x rhs =>
      have hflag := flag_eq (contents_minusAssign (s x) (s rhs)) (minusAssign_spec _ _).2
      exact iff_of_true ⟨congrArg Result.flag hflag, sets_update s x (contents_minusAssign _ _)⟩ trivial
  | intersectWithComplement x rhs =>
      have hflag := flag_eq (contents_minusAssign (s x) (s rhs)) (minusAssign_spec _ _).2
      exact iff_of_true ⟨congrArg Result.flag hflag, sets_update s x (contents_minusAssign _ _)⟩ trivial
  | intersectWithComplementOf x lhs rhs =>
      exact (and_iff_right rfl).trans (intersectWithComplementOf_iff s x lhs rhs)
  | contains x rhs =>
      have hflag : (s x).contains (s rhs) = decide (sets s rhs ⊆ sets s x) := by
        rw [Bool.eq_iff_iff, decide_eq_true_eq, sets, sets, contents_subset_iff]
      exact iff_of_true ⟨congrArg Result.flag hflag, rfl⟩ trivial
  | intersects x rhs =>
      have hflag : (s x).intersects (s rhs) = decide (sets s x ∩ sets s rhs ≠ ∅) := by
        rw [Bool.eq_iff_iff, intersects_iff, decide_eq_true_eq, ← Finset.nonempty_iff_ne_empty]
        exact exists_congr fun n => by rw [Finset.mem_inter, sets, sets, mem_contents, mem_contents]
      exact iff_of_true ⟨congrArg Result.flag hflag, rfl⟩ trivial
  | eq x rhs =>
      have hflag : (s x).eq (s rhs) = decide (sets s x = sets s rhs) := by
        rw [Bool.eq_iff_iff, eq_iff, decide_eq_true_eq, sets, sets, contents_eq_iff]
      exact iff_of_true ⟨congrArg Result.flag hflag, rfl⟩ trivial
  | empty x =>
      have hflag : (s x).empty = decide (sets s x = ∅) := by
        rw [Bool.eq_iff_iff, decide_eq_true_eq, sets, contents_eq_empty_iff]
      exact iff_of_true ⟨congrArg Result.flag hflag, rfl⟩ trivial
  | count x =>
      have hcount : (s x).count.toNat = (s x).contents.card ↔ ∃ bit : UInt32, (s x).test bit = false := by
        rw [count_toNat, ← card_contents_lt_iff]
        exact Nat.mod_eq_iff_lt (by decide)
      constructor
      · exact fun h => hcount.mp (Result.number.inj h.1)
      · exact fun h => ⟨congrArg Result.number (hcount.mpr h), rfl⟩
  | iterate x => exact iff_of_true ⟨congrArg Result.ids (elements_eq _), rfl⟩ trivial
  | assign x rhs => exact iff_of_true ⟨rfl, sets_update s x rfl⟩ trivial
  | clear x => exact iff_of_true ⟨rfl, sets_update s x contents_new⟩ trivial

/-- Sequences of operations on vectors are sequences of operations on sets exactly where all
operations meet the condition. -/
theorem agrees_iff (ops : List (Op ι)) (s : Vectors ι) : Agrees ops s (sets s) ↔ Meets ops s := by
  induction ops generalizing s with
  | nil => exact Iff.rfl
  | cons op ops ih =>
      rw [Agrees, Meets, ← exec_iff, ← ih, ← and_assoc]
      refine and_congr_right fun h => ?_
      rw [h.2]

/-- An empty vector with words makes `|=` report a change, and a target that is the right-hand side
loses all ids. -/
theorem orAssign_flag_and_aliased_target :
    ¬ Agrees [.set true 5, .reset true 5, .orAssign false true] (fun _ : Bool => .new)
      (sets fun _ => .new) ∧
    ¬ Agrees [.set false 5, .set true 9, .intersectWithComplementOf true false true]
      (fun _ : Bool => .new) (sets fun _ => .new) := by
  constructor
  · rintro ⟨-, -, -, -, hflag, -⟩
    exact absurd hflag (by decide)
  · rintro ⟨-, -, -, -, -, hsets, -⟩
    exact absurd (congrFun hsets true) (by decide)

end

/-- Equal vectors of one window have one hash. -/
theorem hash_eq_of_eq {a b : CoreBitVector} (h : a.eq b = true) (hoffset : a.offset = b.offset)
    (hlength : a.words.length = b.words.length) : a.hash = b.hash := by
  have hwords : a.words = b.words := by
    refine PackedBits.eq_of_bitAt hlength fun k => ?_
    have hiff := eq_iff.mp h (a.offset + k)
    rw [mem_def, mem_def, ← hoffset, Nat.add_sub_cancel_left, and_iff_right (Nat.le_add_right _ _),
      and_iff_right (Nat.le_add_right _ _)] at hiff
    exact Bool.eq_iff_iff.mpr hiff
  unfold CoreBitVector.hash
  rw [hwords, hoffset]

theorem hash_eq_of_eq_set_reset :
    ((CoreBitVector.new.set 64).set 3 |>.reset 64).hash = ((CoreBitVector.new.set 3).set 70 |>.reset 70).hash :=
  hash_eq_of_eq (by decide) (by decide) (by decide)

/-- A word that was reset keeps its place in the hash. -/
theorem hash_ne_of_eq : ¬ ∀ ops ops' : List (Op Unit),
    (run ops (fun _ => .new) ()).eq (run ops' (fun _ => .new) ()) = true →
      (run ops (fun _ => .new) ()).hash = (run ops' (fun _ => .new) ()).hash := by
  intro h
  exact absurd (h [.set () 0, .set () 64, .reset () 64] [.set () 0] (by decide)) (by decide)

end SVF.Util.CoreBitVectors
