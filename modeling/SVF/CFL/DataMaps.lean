import SVF.CFL.EdgeGraph

namespace SVF.CFL.DataMaps

open EdgeGraph Util.DefaultMaps

variable {Sym : Type} [DecidableEq Sym]

abbrev NodeBS := List NodeID

def NodeBS.test_and_set (bs : NodeBS) (n : NodeID) : NodeBS × Bool :=
  if n ∈ bs then (bs, false) else (bs.orderedInsert (· ≤ ·) n, true)

def NodeBS.unionWith (bs data : NodeBS) : NodeBS × Bool :=
  (data.foldl (fun bs n => (NodeBS.test_and_set bs n).1) bs, data.any (fun n => n ∉ bs))

theorem mem_test_and_set (bs : NodeBS) (n k : NodeID) :
    k ∈ (NodeBS.test_and_set bs n).1 ↔ k ∈ bs ∨ k = n := by
  by_cases h : n ∈ bs
  · rw [NodeBS.test_and_set, if_pos h]
    exact ⟨.inl, fun hk => hk.elim id (fun he => he ▸ h)⟩
  · rw [NodeBS.test_and_set, if_neg h, List.mem_orderedInsert, or_comm]

theorem test_and_set_changed (bs : NodeBS) (n : NodeID) :
    (NodeBS.test_and_set bs n).2 = true ↔ n ∉ bs := by
  by_cases h : n ∈ bs <;> simp [NodeBS.test_and_set, h]

theorem test_and_set_nodup {bs : NodeBS} (h : bs.Nodup) (n : NodeID) :
    (NodeBS.test_and_set bs n).1.Nodup := by
  by_cases hn : n ∈ bs
  · rwa [NodeBS.test_and_set, if_pos hn]
  · rw [NodeBS.test_and_set, if_neg hn]
    exact (List.perm_orderedInsert (· ≤ ·) n bs).nodup_iff.mpr (List.nodup_cons.mpr ⟨hn, h⟩)

theorem mem_unionWith (bs data : NodeBS) (k : NodeID) :
    k ∈ (NodeBS.unionWith bs data).1 ↔ k ∈ bs ∨ k ∈ data := by
  rw [NodeBS.unionWith]
  induction data generalizing bs with
  | nil => simp
  | cons n data ih =>
      rw [List.foldl_cons, ih, mem_test_and_set, List.mem_cons, or_assoc]

theorem unionWith_changed (bs data : NodeBS) :
    (NodeBS.unionWith bs data).2 = true ↔ ∃ n ∈ data, n ∉ bs := by
  simp [NodeBS.unionWith]

abbrev TypeMap (Sym : Type) := DefaultMap Sym NodeBS

abbrev DataMap (Sym : Type) := DefaultMap NodeID (TypeMap Sym)

def DataMap.set (m : DataMap Sym) (key n : NodeID) (ty : Sym) : DataMap Sym × Bool :=
  (m.modify key (·.modify ty fun bs => (bs.test_and_set n).1), (((m.get key).get ty).test_and_set n).2)

def DataMap.union (m : DataMap Sym) (key : NodeID) (data : NodeBS) (ty : Sym) : DataMap Sym × Bool :=
  if data.isEmpty then (m, false)
  else (m.modify key (·.modify ty fun bs => (bs.unionWith data).1), (((m.get key).get ty).unionWith data).2)

/-- Set `n` under every key of `data`, and collect the keys it was not yet set under. -/
def DataMap.setEach (data : NodeBS) (n : NodeID) (ty : Sym) (r : DataMap Sym × NodeBS) :
    DataMap Sym × NodeBS :=
  data.foldl (fun (m, newKeys) datum =>
    let (m, added) := DataMap.set m datum n ty
    (m, if added then (NodeBS.test_and_set newKeys datum).1 else newKeys)) r

structure CFLData (Sym : Type) [DecidableEq Sym] where
  succMap : DataMap Sym
  predMap : DataMap Sym

namespace CFLData

def empty : CFLData Sym := ⟨.empty, .empty⟩

def addPred (d : CFLData Sym) (key src : NodeID) (ty : Sym) : CFLData Sym × Bool :=
  let (predMap, added) := DataMap.set d.predMap key src ty
  ({ d with predMap := predMap }, added)

def addSucc (d : CFLData Sym) (key dst : NodeID) (ty : Sym) : CFLData Sym × Bool :=
  let (succMap, added) := DataMap.set d.succMap key dst ty
  ({ d with succMap := succMap }, added)

def getSuccs (d : CFLData Sym) (key : NodeID) (ty : Sym) : CFLData Sym × NodeBS :=
  ({ d with succMap := d.succMap.modify key (·.touch ty) }, (d.succMap.get key).get ty)

def getPreds (d : CFLData Sym) (key : NodeID) (ty : Sym) : CFLData Sym × NodeBS :=
  ({ d with predMap := d.predMap.modify key (·.touch ty) }, (d.predMap.get key).get ty)

def addEdge (d : CFLData Sym) (src dst : NodeID) (ty : Sym) : CFLData Sym × Bool :=
  let (d, _) := d.addSucc src dst ty
  d.addPred dst src ty

def addEdgesToDsts (d : CFLData Sym) (src : NodeID) (dstData : NodeBS) (ty : Sym) :
    CFLData Sym × NodeBS :=
  match DataMap.union d.succMap src dstData ty with
  | (succMap, true) =>
      let (predMap, newDsts) := DataMap.setEach dstData src ty (d.predMap, [])
      (⟨succMap, predMap⟩, newDsts)
  | (succMap, false) => ({ d with succMap := succMap }, [])

def addEdgesFromSrcs (d : CFLData Sym) (srcData : NodeBS) (dst : NodeID) (ty : Sym) :
    CFLData Sym × NodeBS :=
  match DataMap.union d.predMap dst srcData ty with
  | (predMap, true) =>
      let (succMap, newSrcs) := DataMap.setEach srcData dst ty (d.succMap, [])
      (⟨succMap, predMap⟩, newSrcs)
  | (predMap, false) => ({ d with predMap := predMap }, [])

def hasEdge (d : CFLData Sym) (src dst : NodeID) (ty : Sym) : Bool :=
  dst ∈ (d.succMap.get src).get ty

end CFLData

def Reads (m : DataMap Sym) (P : NodeID → Sym → NodeID → Prop) : Prop :=
  ∀ key ty n, n ∈ (m.get key).get ty ↔ P key ty n

theorem get_set_get (m : DataMap Sym) (key n : NodeID) (ty : Sym) (k : NodeID) (Y : Sym) :
    ((DataMap.set m key n ty).1.get k).get Y =
      if k = key ∧ Y = ty then (((m.get key).get ty).test_and_set n).1 else (m.get k).get Y := by
  by_cases hk : k = key
  · by_cases hY : Y = ty <;> simp [DataMap.set, get_modify, hk, hY]
  · simp [DataMap.set, get_modify, hk]

theorem get_union_get (m : DataMap Sym) (key : NodeID) (data : NodeBS) (ty : Sym) (k : NodeID)
    (Y : Sym) (n : NodeID) : n ∈ ((DataMap.union m key data ty).1.get k).get Y ↔
      n ∈ (m.get k).get Y ∨ k = key ∧ Y = ty ∧ n ∈ data := by
  by_cases hd : data.isEmpty
  · simp [DataMap.union, List.isEmpty_iff.mp hd]
  · by_cases hk : k = key
    · by_cases hY : Y = ty <;> simp [DataMap.union, hd, get_modify, hk, hY, mem_unionWith]
    · simp [DataMap.union, hd, get_modify, hk]

theorem Reads.set {m : DataMap Sym} {P : NodeID → Sym → NodeID → Prop} (h : Reads m P)
    (key n : NodeID) (ty : Sym) :
    Reads (DataMap.set m key n ty).1 (fun k Y l => P k Y l ∨ k = key ∧ Y = ty ∧ l = n) ∧
      ((DataMap.set m key n ty).2 = true ↔ ¬ P key ty n) := by
  constructor
  · intro k Y l
    rw [get_set_get]
    by_cases hkey : k = key ∧ Y = ty
    · obtain ⟨rfl, rfl⟩ := hkey
      simp [mem_test_and_set, h k Y l]
    · rw [if_neg hkey, h k Y l]
      constructor
      · exact .inl
      · rintro (hP | ⟨hk, hY, _⟩)
        · exact hP
        · exact absurd ⟨hk, hY⟩ hkey
  · rw [← h key ty n]
    exact test_and_set_changed _ _

theorem Reads.union {m : DataMap Sym} {P : NodeID → Sym → NodeID → Prop} (h : Reads m P)
    (key : NodeID) (data : NodeBS) (ty : Sym) :
    Reads (DataMap.union m key data ty).1 (fun k Y l => P k Y l ∨ k = key ∧ Y = ty ∧ l ∈ data) ∧
      ((DataMap.union m key data ty).2 = true ↔ ∃ l ∈ data, ¬ P key ty l) := by
  constructor
  · intro k Y l
    rw [get_union_get, h k Y l]
  · simp only [← h key ty _]
    by_cases hd : data.isEmpty
    · simp [DataMap.union, List.isEmpty_iff.mp hd]
    · simp only [DataMap.union, hd]
      exact unionWith_changed _ _

theorem Reads.setEach {m : DataMap Sym} {P : NodeID → Sym → NodeID → Prop} (h : Reads m P)
    (data : NodeBS) (n : NodeID) (ty : Sym) (newKeys : NodeBS) :
    Reads (DataMap.setEach data n ty (m, newKeys)).1 (fun k Y l => P k Y l ∨ k ∈ data ∧ Y = ty ∧ l = n) ∧
      (∀ k, k ∈ (DataMap.setEach data n ty (m, newKeys)).2 ↔ k ∈ newKeys ∨ k ∈ data ∧ ¬ P k ty n) ∧
      (newKeys.Nodup → (DataMap.setEach data n ty (m, newKeys)).2.Nodup) := by
  induction data generalizing m P newKeys with
  | nil => simpa [DataMap.setEach] using h
  | cons datum data ih =>
      obtain ⟨hset, hadded⟩ := h.set datum n ty
      obtain ⟨hreads, hmem, hnodup⟩ := ih hset
        (if (DataMap.set m datum n ty).2 then (NodeBS.test_and_set newKeys datum).1 else newKeys)
      refine ⟨?_, ?_, ?_⟩
      · intro k Y l
        refine (hreads k Y l).trans ?_
        simp only [List.mem_cons]
        tauto
      · intro k
        refine (hmem k).trans ?_
        by_cases hP : P datum ty n
        · simp only [hadded, hP, not_true_eq_false, if_false, List.mem_cons, and_true]
          constructor
          · rintro (hk | ⟨hk, hn⟩)
            · exact .inl hk
            · exact .inr ⟨.inr hk, fun hk' => hn (.inl hk')⟩
          · rintro (hk | ⟨rfl | hk, hn⟩)
            · exact .inl hk
            · exact absurd hP hn
            · by_cases hkd : k = datum
              · exact absurd (hkd ▸ hP) hn
              · exact .inr ⟨hk, fun hk' => hk'.elim hn hkd⟩
        · simp only [hadded, hP, not_false_eq_true, if_true, List.mem_cons, and_true,
            mem_test_and_set]
          constructor
          · rintro ((hk | rfl) | ⟨hk, hn⟩)
            · exact .inl hk
            · exact .inr ⟨.inl rfl, hP⟩
            · exact .inr ⟨.inr hk, fun hk' => hn (.inl hk')⟩
          · rintro (hk | ⟨rfl | hk, hn⟩)
            · exact .inl (.inl hk)
            · exact .inl (.inr rfl)
            · by_cases hkd : k = datum
              · exact .inl (.inr hkd)
              · exact .inr ⟨hk, fun hk' => hk'.elim hn hkd⟩
      · intro hn
        refine hnodup ?_
        split
        · exact test_and_set_nodup hn datum
        · exact hn

structure Stores (d : CFLData Sym) (D : Set (CFLEdge Sym)) : Prop where
  succ : Reads d.succMap (fun i X j => ⟨i, j, X⟩ ∈ D)
  pred : Reads d.predMap (fun j X i => ⟨i, j, X⟩ ∈ D)

omit [DecidableEq Sym] in
theorem Reads.congr {m : DataMap Sym} {P Q : NodeID → Sym → NodeID → Prop} (h : Reads m P)
    (hPQ : ∀ k Y l, P k Y l ↔ Q k Y l) : Reads m Q :=
  fun k Y l => (h k Y l).trans (hPQ k Y l)

theorem Reads.touch {m : DataMap Sym} {P : NodeID → Sym → NodeID → Prop} (h : Reads m P)
    (key : NodeID) (ty : Sym) : Reads (m.modify key (·.touch ty)) P := by
  intro k Y l
  rw [get_modify]
  split
  · rename_i hk
    rw [get_touch, ← hk]
    exact h k Y l
  · exact h k Y l

theorem stores_empty : Stores (.empty : CFLData Sym) ∅ := by
  constructor <;> intro k Y l <;> simp [CFLData.empty, DefaultMap.empty, default]

section

variable {d : CFLData Sym} {D : Set (CFLEdge Sym)}

theorem Stores.getSuccs (h : Stores d D) (key : NodeID) (ty : Sym) :
    Stores (d.getSuccs key ty).1 D ∧ ∀ k, k ∈ (d.getSuccs key ty).2 ↔ ⟨key, k, ty⟩ ∈ D :=
  ⟨⟨h.succ.touch key ty, h.pred⟩, h.succ key ty⟩

theorem Stores.getPreds (h : Stores d D) (key : NodeID) (ty : Sym) :
    Stores (d.getPreds key ty).1 D ∧ ∀ k, k ∈ (d.getPreds key ty).2 ↔ ⟨k, key, ty⟩ ∈ D :=
  ⟨⟨h.succ, h.pred.touch key ty⟩, h.pred key ty⟩

theorem Stores.addEdge (h : Stores d D) (src dst : NodeID) (ty : Sym) :
    Stores (d.addEdge src dst ty).1 (insert ⟨src, dst, ty⟩ D) ∧
      ((d.addEdge src dst ty).2 = true ↔ ⟨src, dst, ty⟩ ∉ D) := by
  obtain ⟨hsucc, _⟩ := h.succ.set src dst ty
  obtain ⟨hpred, hadded⟩ := h.pred.set dst src ty
  refine ⟨⟨hsucc.congr fun k Y l => ?_, hpred.congr fun k Y l => ?_⟩, hadded⟩
  · rw [Set.mem_insert_iff, CFLEdge.mk.injEq]
    tauto
  · rw [Set.mem_insert_iff, CFLEdge.mk.injEq]
    tauto

theorem Stores.addEdgesToDsts (h : Stores d D) (src : NodeID) (dstData : NodeBS) (ty : Sym) :
    Stores (d.addEdgesToDsts src dstData ty).1 (D ∪ {e | e.src = src ∧ e.dst ∈ dstData ∧ e.kind = ty}) ∧
      (∀ k, k ∈ (d.addEdgesToDsts src dstData ty).2 ↔ k ∈ dstData ∧ ⟨src, k, ty⟩ ∉ D) ∧
      (d.addEdgesToDsts src dstData ty).2.Nodup := by
  obtain ⟨hsucc, hchanged⟩ := h.succ.union src dstData ty
  obtain ⟨hpred, hmem, hnodup⟩ := h.pred.setEach dstData src ty []
  cases hu : DataMap.union d.succMap src dstData ty with
  | mk succMap changed =>
      rw [hu] at hsucc hchanged
      cases changed with
      | true =>
          simp only [CFLData.addEdgesToDsts, hu]
          refine ⟨⟨hsucc.congr fun k Y l => ?_, hpred.congr fun k Y l => ?_⟩, ?_, hnodup List.nodup_nil⟩
          · simp only [Set.mem_union, Set.mem_ofPred_eq]
            tauto
          · simp only [Set.mem_union, Set.mem_ofPred_eq]
            tauto
          · simpa using hmem
      | false =>
          have hsub : ∀ l ∈ dstData, ⟨src, l, ty⟩ ∈ D := by
            intro l hl
            by_contra hn
            exact absurd (hchanged.mpr ⟨l, hl, hn⟩) Bool.false_ne_true
          have hD : D ∪ {e | e.src = src ∧ e.dst ∈ dstData ∧ e.kind = ty} = D := by
            rw [Set.union_eq_left]
            rintro ⟨i, j, X⟩ ⟨rfl, hj, rfl⟩
            exact hsub j hj
          simp only [CFLData.addEdgesToDsts, hu]
          refine ⟨?_, fun k => ?_, List.nodup_nil⟩
          · rw [hD]
            refine ⟨hsucc.congr fun k Y l => ?_, h.pred⟩
            constructor
            · rintro (hP | ⟨rfl, rfl, hl⟩)
              · exact hP
              · exact hsub l hl
            · exact .inl
          · simp only [List.not_mem_nil, false_iff, not_and, not_not]
            exact hsub k

theorem Stores.addEdgesFromSrcs (h : Stores d D) (srcData : NodeBS) (dst : NodeID) (ty : Sym) :
    Stores (d.addEdgesFromSrcs srcData dst ty).1 (D ∪ {e | e.src ∈ srcData ∧ e.dst = dst ∧ e.kind = ty}) ∧
      (∀ k, k ∈ (d.addEdgesFromSrcs srcData dst ty).2 ↔ k ∈ srcData ∧ ⟨k, dst, ty⟩ ∉ D) ∧
      (d.addEdgesFromSrcs srcData dst ty).2.Nodup := by
  obtain ⟨hpred, hchanged⟩ := h.pred.union dst srcData ty
  obtain ⟨hsucc, hmem, hnodup⟩ := h.succ.setEach srcData dst ty []
  cases hu : DataMap.union d.predMap dst srcData ty with
  | mk predMap changed =>
      rw [hu] at hpred hchanged
      cases changed with
      | true =>
          simp only [CFLData.addEdgesFromSrcs, hu]
          refine ⟨⟨hsucc.congr fun k Y l => ?_, hpred.congr fun k Y l => ?_⟩, ?_, hnodup List.nodup_nil⟩
          · simp only [Set.mem_union, Set.mem_ofPred_eq]
            tauto
          · simp only [Set.mem_union, Set.mem_ofPred_eq]
            tauto
          · simpa using hmem
      | false =>
          have hsub : ∀ l ∈ srcData, ⟨l, dst, ty⟩ ∈ D := by
            intro l hl
            by_contra hn
            exact absurd (hchanged.mpr ⟨l, hl, hn⟩) Bool.false_ne_true
          have hD : D ∪ {e | e.src ∈ srcData ∧ e.dst = dst ∧ e.kind = ty} = D := by
            rw [Set.union_eq_left]
            rintro ⟨i, j, X⟩ ⟨hi, rfl, rfl⟩
            exact hsub i hi
          simp only [CFLData.addEdgesFromSrcs, hu]
          refine ⟨?_, fun k => ?_, List.nodup_nil⟩
          · rw [hD]
            refine ⟨h.succ, hpred.congr fun k Y l => ?_⟩
            constructor
            · rintro (hP | ⟨rfl, rfl, hl⟩)
              · exact hP
              · exact hsub l hl
            · exact .inl
          · simp only [List.not_mem_nil, false_iff, not_and, not_not]
            exact hsub k

end

end SVF.CFL.DataMaps
