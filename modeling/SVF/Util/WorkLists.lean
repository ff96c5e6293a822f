import Mathlib.Data.Finset.Card

namespace SVF.Util.WorkLists

variable {Data : Type*}

inductive Op (Data : Type*)
  | push (data : Data)
  | pop
  | find (data : Data)
  | clear
  | empty
  deriving DecidableEq

inductive Res (Data : Type*)
  | done
  | answer (b : Bool)
  | popped (data : Data)

section

variable [DecidableEq Data]

/-- The class `List`: its nodes from `head` to `tail`, and the set beside them. -/
structure NodeList (Data : Type*) where
  nodes : List Data
  nodeSet : Finset Data

namespace NodeList

def empty (l : NodeList Data) : Bool := l.nodes.isEmpty

def find (l : NodeList Data) (data : Data) : Bool := data ∈ l.nodeSet

def push (l : NodeList Data) (data : Data) : NodeList Data :=
  if data ∉ l.nodeSet then { l with nodes := l.nodes ++ [data] } else l

def pop (l : NodeList Data) : Option (Data × NodeList Data) :=
  match l.nodes with
  | [] => none
  | head :: next => some (head, ⟨next, l.nodeSet.erase head⟩)

/-- A failed assertion is `none`. There is no `clear`. -/
def step (l : NodeList Data) : Op Data → Option (Res Data × NodeList Data)
  | .push data => some (.done, l.push data)
  | .pop => l.pop.map fun (data, l) => (.popped data, l)
  | .find data => some (.answer (l.find data), l)
  | .clear => none
  | .empty => some (.answer l.empty, l)

end NodeList

/-- The fields of `FIFOWorkList` and `FILOWorkList`; the list is kept from front to back. -/
structure WorkList (Data : Type*) where
  data_list : List Data
  data_set : Finset Data

namespace WorkList

def empty (l : WorkList Data) : Bool := l.data_list.isEmpty

def find (l : WorkList Data) (data : Data) : Bool := data ∈ l.data_set

def push (l : WorkList Data) (data : Data) : Bool × WorkList Data :=
  if !l.find data then (true, ⟨l.data_list ++ [data], insert data l.data_set⟩) else (false, l)

def clear (_ : WorkList Data) : WorkList Data := ⟨[], ∅⟩

def step (pop : WorkList Data → Option (Data × WorkList Data)) (l : WorkList Data) :
    Op Data → Option (Res Data × WorkList Data)
  | .push data => some (.answer (l.push data).1, (l.push data).2)
  | .pop => (pop l).map fun (data, l) => (.popped data, l)
  | .find data => some (.answer (l.find data), l)
  | .clear => some (.done, l.clear)
  | .empty => some (.answer l.empty, l)

end WorkList

def FIFOWorkList.pop (l : WorkList Data) : Option (Data × WorkList Data) :=
  match l.data_list with
  | [] => none
  | data :: data_list => some (data, ⟨data_list, l.data_set.erase data⟩)

def FIFOWorkList.step : WorkList Data → Op Data → Option (Res Data × WorkList Data) := WorkList.step FIFOWorkList.pop

def FILOWorkList.pop (l : WorkList Data) : Option (Data × WorkList Data) :=
  l.data_list.getLast?.map fun data => (data, ⟨l.data_list.dropLast, l.data_set.erase data⟩)

def FILOWorkList.step : WorkList Data → Op Data → Option (Res Data × WorkList Data) := WorkList.step FILOWorkList.pop

end

section

variable [DecidableEq Data]

inductive Kind
  | List
  | FIFO
  | FILO

def pushed : Kind → Bool → Res Data
  | .List, _ => .done
  | .FIFO, absent | .FILO, absent => .answer absent

/-- The element that is taken from a list in the order of arrival, and what is left. -/
def take : Kind → List Data → Option (Data × List Data)
  | .List, l | .FIFO, l => l.head?.map fun data => (data, l.tail)
  | .FILO, l => l.getLast?.map fun data => (data, l.dropLast)

/-- The elements without duplicates, in the order of arrival. -/
def listStep (kind : Kind) (l : List Data) : Op Data → Option (Res Data × List Data)
  | .push data => some (pushed kind (data ∉ l), if data ∈ l then l else l ++ [data])
  | .pop => (take kind l).map fun (data, l) => (.popped data, l)
  | .find data => some (.answer (data ∈ l), l)
  | .clear => match kind with
    | .List => none
    | .FIFO | .FILO => some (.done, [])
  | .empty => some (.answer l.isEmpty, l)

/-- At every moment of a run no element occurs twice and `find` tells the elements of the list, and each
operation does what it does to the list. -/
def Along {S : Type*} (kind : Kind) (step : S → Op Data → Option (Res Data × S)) (contents : S → List Data)
    (find : S → Data → Bool) : S → List (Op Data) → Prop
  | s, [] => (contents s).Nodup ∧ ∀ data, find s data = true ↔ data ∈ contents s
  | s, op :: ops => ((contents s).Nodup ∧ ∀ data, find s data = true ↔ data ∈ contents s) ∧
      (step s op).map (Prod.map id contents) = listStep kind (contents s) op ∧
      ∀ r s', step s op = some (r, s') → Along kind step contents find s' ops

def Works : Kind → List (Op Data) → Prop
  | .List => Along .List NodeList.step NodeList.nodes NodeList.find ⟨[], ∅⟩
  | .FIFO => Along .FIFO FIFOWorkList.step WorkList.data_list WorkList.find ⟨[], ∅⟩
  | .FILO => Along .FILO FILOWorkList.step WorkList.data_list WorkList.find ⟨[], ∅⟩

end

section

variable [DecidableEq Data] {S : Type*} {kind : Kind} {step : S → Op Data → Option (Res Data × S)}
  {contents : S → List Data} {find : S → Data → Bool}

theorem Along.now {s : S} {ops : List (Op Data)} (h : Along kind step contents find s ops) :
    (contents s).Nodup ∧ ∀ data, find s data = true ↔ data ∈ contents s := by
  cases ops with
  | nil => exact h
  | cons op ops => exact h.1

theorem along_of_inv {I : S → Prop}
    (hnow : ∀ s, I s → (contents s).Nodup ∧ ∀ data, find s data = true ↔ data ∈ contents s)
    (hstep : ∀ s op, I s → (step s op).map (Prod.map id contents) = listStep kind (contents s) op)
    (hkeep : ∀ s op r s', I s → step s op = some (r, s') → I s') (ops : List (Op Data)) {s : S} (hs : I s) :
    Along kind step contents find s ops := by
  induction ops generalizing s with
  | nil => exact hnow s hs
  | cons op ops ih =>
      refine ⟨hnow s hs, hstep s op hs, fun r s' h => ?_⟩
      exact ih (hkeep s op r s' hs h)

structure WorkList.Inv (l : WorkList Data) : Prop where
  set_eq : l.data_set = l.data_list.toFinset
  nodup : l.data_list.Nodup

variable {l : WorkList Data} {data : Data}

theorem WorkList.Inv.find_iff (h : l.Inv) (data : Data) : l.find data = true ↔ data ∈ l.data_list := by
  rw [WorkList.find, decide_eq_true_iff, h.set_eq, List.mem_toFinset]

theorem WorkList.Inv.push_eq (h : l.Inv) (data : Data) : l.push data =
    (decide (data ∉ l.data_list), if data ∈ l.data_list then l else ⟨l.data_list ++ [data], insert data l.data_set⟩) := by
  rw [WorkList.push]
  by_cases hmem : data ∈ l.data_list
  · rw [(h.find_iff data).mpr hmem, if_pos hmem]
    simp [hmem]
  · have hfind : l.find data = false := (Bool.not_eq_true _).mp (mt (h.find_iff data).mp hmem)
    simp [hfind, hmem]

theorem WorkList.Inv.push (h : l.Inv) (data : Data) : (l.push data).2.Inv := by
  rw [h.push_eq]
  dsimp only
  split
  · exact h
  · rename_i hmem
    refine ⟨?_, ?_⟩
    · ext x
      dsimp only
      rw [h.set_eq, Finset.mem_insert, List.mem_toFinset, List.mem_toFinset, List.mem_append, List.mem_singleton,
        or_comm]
    · rw [List.nodup_append]
      refine ⟨h.nodup, List.nodup_singleton data, ?_⟩
      rintro x hx y hy rfl
      exact hmem (List.mem_singleton.mp hy ▸ hx)

theorem fifo_pop (h : l.Inv) : (FIFOWorkList.pop l).map (Prod.map id WorkList.data_list) = take .FIFO l.data_list ∧
    ∀ p, FIFOWorkList.pop l = some p → p.2.Inv := by
  obtain ⟨data_list, data_set⟩ := l
  obtain ⟨hset, hnodup⟩ := h
  cases data_list with
  | nil => exact ⟨rfl, fun p hp => by contradiction⟩
  | cons data data_list =>
      refine ⟨rfl, ?_⟩
      rintro p ⟨⟩
      rw [List.nodup_cons] at hnodup
      refine ⟨?_, hnodup.2⟩
      dsimp only at hset ⊢
      rw [hset, List.toFinset_cons, Finset.erase_insert (by simpa using hnodup.1)]

theorem filo_pop (h : l.Inv) : (FILOWorkList.pop l).map (Prod.map id WorkList.data_list) = take .FILO l.data_list ∧
    ∀ p, FILOWorkList.pop l = some p → p.2.Inv := by
  obtain ⟨data_list, data_set⟩ := l
  obtain ⟨hset, hnodup⟩ := h
  induction data_list using List.reverseRecOn with
  | nil => exact ⟨rfl, fun p hp => by contradiction⟩
  | append_singleton data_list data ih =>
      have hpop : FILOWorkList.pop ⟨data_list ++ [data], data_set⟩ = some (data, ⟨data_list, data_set.erase data⟩) := by
        simp [FILOWorkList.pop]
      rw [hpop]
      refine ⟨by simp [take], ?_⟩
      rintro p ⟨⟩
      rw [List.nodup_append] at hnodup
      refine ⟨?_, hnodup.1⟩
      dsimp only at hset ⊢
      ext x
      rw [hset, Finset.mem_erase, List.mem_toFinset, List.mem_toFinset, List.mem_append, List.mem_singleton]
      constructor
      · rintro ⟨hne, hx | hx⟩
        · exact hx
        · exact absurd hx hne
      · intro hx
        exact ⟨hnodup.2.2 x hx data (List.mem_singleton_self data), .inl hx⟩

theorem worklist_along {pop : WorkList Data → Option (Data × WorkList Data)} (hkind : kind ≠ .List)
    (hpop : ∀ l, l.Inv → (pop l).map (Prod.map id WorkList.data_list) = take kind l.data_list ∧
      ∀ p, pop l = some p → p.2.Inv) (ops : List (Op Data)) (h : l.Inv) :
    Along kind (WorkList.step pop) WorkList.data_list WorkList.find l ops := by
  refine along_of_inv (I := WorkList.Inv) (fun l h => ⟨h.nodup, h.find_iff⟩) ?_ ?_ ops h
  · intro l op h
    cases op with
    | push data =>
        have hpushed : (pushed kind (data ∉ l.data_list) : Res Data) = .answer (decide (data ∉ l.data_list)) := by
          cases kind with
          | List => exact absurd rfl hkind
          | FIFO => rfl
          | FILO => rfl
        rw [WorkList.step, listStep, hpushed, h.push_eq, Option.map_some, Prod.map_apply]
        dsimp only
        split <;> rfl
    | pop =>
        rw [WorkList.step, listStep, ← (hpop l h).1, Option.map_map, Option.map_map]
        rfl
    | find data =>
        have hfind : l.find data = decide (data ∈ l.data_list) := by
          rw [Bool.eq_iff_iff, decide_eq_true_iff]
          exact h.find_iff data
        rw [WorkList.step, hfind]
        rfl
    | clear =>
        cases kind with
        | List => exact absurd rfl hkind
        | FIFO => rfl
        | FILO => rfl
    | empty => rfl
  · intro l op r l' h hstep
    cases op with
    | push data =>
        cases hstep
        exact h.push data
    | pop =>
        obtain ⟨p, hp, heq⟩ := Option.map_eq_some_iff.mp hstep
        cases heq
        exact (hpop l h).2 p hp
    | find data =>
        cases hstep
        exact h
    | clear =>
        cases hstep
        exact ⟨rfl, List.nodup_nil⟩
    | empty =>
        cases hstep
        exact h

theorem inv_empty : (⟨[], ∅⟩ : WorkList Data).Inv := ⟨rfl, List.nodup_nil⟩

/-- What is pushed into a `List` is not recorded in its set. -/
theorem not_along_push (data : Data) (ops : List (Op Data)) :
    ¬ Along .List NodeList.step NodeList.nodes NodeList.find ⟨[], ∅⟩ (.push data :: ops) := by
  intro h
  have hnow := (h.2.2 .done ⟨[data], ∅⟩ rfl).now
  have hfind : NodeList.find ⟨[data], ∅⟩ data = true := (hnow.2 data).mpr (List.mem_singleton_self data)
  simp [NodeList.find] at hfind

theorem along_of_unchanged {op : Op Data} {r : Res Data} (ops : List (Op Data))
    (hstep : NodeList.step ⟨[], ∅⟩ op = some (r, ⟨[], ∅⟩)) (hlist : listStep .List [] op = some (r, [])) :
    Along .List NodeList.step NodeList.nodes NodeList.find ⟨[], ∅⟩ (op :: ops) ↔
      Along .List NodeList.step NodeList.nodes NodeList.find ⟨[], ∅⟩ ops := by
  constructor
  · exact fun h => h.2.2 r _ hstep
  · intro h
    refine ⟨h.now, ?_, ?_⟩
    · rw [hstep]
      exact hlist.symm
    · intro r' s' hs
      rw [hstep] at hs
      cases hs
      exact h

theorem list_works_iff (ops : List (Op Data)) : Works .List ops ↔
    ∀ data, .push data ∉ ops.takeWhile fun op => op ≠ .pop ∧ op ≠ .clear := by
  rw [Works]
  induction ops with
  | nil => simp [Along, NodeList.find]
  | cons op ops ih =>
      cases op with
      | push data =>
          refine iff_of_false (not_along_push data ops) fun h => ?_
          simpa using h data
      | pop => simp [Along, NodeList.step, NodeList.pop, listStep, take, NodeList.find]
      | find data =>
          rw [along_of_unchanged (r := .answer false) ops rfl rfl, ih]
          simp
      | clear => simp [Along, NodeList.step, listStep, NodeList.find]
      | empty =>
          rw [along_of_unchanged (r := .answer true) ops rfl rfl, ih]
          simp

/-- A `List` does not record what it holds. -/
theorem works_iff (kind : Kind) (ops : List (Op Data)) : Works kind ops ↔
    kind ≠ .List ∨ ∀ data, .push data ∉ ops.takeWhile fun op => op ≠ .pop ∧ op ≠ .clear := by
  cases kind with
  | List =>
      rw [list_works_iff]
      exact (or_iff_right (not_not_intro rfl)).symm
  | FIFO =>
      have hfifo : (.FIFO : Kind) ≠ .List := Kind.noConfusion
      exact iff_of_true (worklist_along hfifo (fun l => fifo_pop) ops inv_empty) (.inl hfifo)
  | FILO =>
      have hfilo : (.FILO : Kind) ≠ .List := Kind.noConfusion
      exact iff_of_true (worklist_along hfilo (fun l => filo_pop) ops inv_empty) (.inl hfilo)

theorem list_keeps_duplicates : ¬ Works .List [Op.push 1, .push 1] ∧
    (NodeList.push (NodeList.push ⟨[], ∅⟩ 1) 1).nodes = [1, 1] := ⟨not_along_push 1 [.push 1], rfl⟩

end

end SVF.Util.WorkLists
