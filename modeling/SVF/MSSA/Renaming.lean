import SVF.MSSA.Placement

namespace SVF.MSSA.Renaming

open MemorySSA Placement Util.Dominance

section

variable (mrGen : MRGenerator) (fn : FunObjVar) (phis : BasicBlock → List MemRegion)

/-- The definition of `r` that holds after the places `l`, when `d` holds before. -/
def defAfter (r : MemRegion) (d : MSSADEF) (l : List Site) : MSSADEF :=
  l.foldl (fun d site => (siteDef mrGen r site).getD d) d

def joinDef (r : MemRegion) (b : BasicBlock) (d : MSSADEF) : MSSADEF :=
  if r ∈ phis b then .phi b r else d

def lastDef (r : MemRegion) : List BasicBlock → MSSADEF
  | [] => .entryChi r
  | b :: p => defAfter mrGen r (joinDef phis r b (lastDef r p)) (sites fn b)

/-- The definition of `r` that reaches the place after `pre` in the block `b`,
when `b` is reached along `p`. -/
def reaching (r : MemRegion) (b : BasicBlock) (p : List BasicBlock) (pre : List Site) : MSSADEF :=
  defAfter mrGen r (joinDef phis r b (lastDef mrGen fn phis r p)) pre

def Uses : Site → MSSAMU → Prop
  | .load l, .loadMu l' _ => l' = l
  | .call c, .callMu c' _ => c' = c
  | .ret, .retMu _ => True
  | _, _ => False

def Chis : Site → MSSADEF → Prop
  | .store st, .storeChi st' _ => st' = st
  | .call c, .callChi c' _ => c' = c
  | _, _ => False

abbrev PathTo (b : BasicBlock) (p : List BasicBlock) : Prop := Path (edge fn) fn.entryBlock b p

def MuRight (m : MSSAMU) (d : MSSADEF) : Prop :=
  ∀ b pre site post, Reach fn b → sites fn b = pre ++ site :: post → Uses site m →
    ∀ p, PathTo fn b p → reaching mrGen fn phis m.mr b p pre = d

def OpRight (chi d : MSSADEF) : Prop :=
  ∀ b pre site post, Reach fn b → sites fn b = pre ++ site :: post → Chis site chi →
    ∀ p, PathTo fn b p → reaching mrGen fn phis chi.mr b p pre = d

def PhiRight (b : BasicBlock) (r : MemRegion) (i : ℕ) (d : MSSADEF) : Prop :=
  ∀ a, Reach fn a → (fn.predecessors b)[i]? = some a →
    ∀ p, PathTo fn a p → lastDef mrGen fn phis r (a :: p) = d

end

section

def pushDefs (chi : MemRegion → MSSADEF) (s : MemSSA) (l : List MemRegion) : MemSSA :=
  { s with
    mr2VerStackMap := fun r =>
      if r ∈ l then ⟨r, s.mr2CounterMap r, chi r⟩ :: s.mr2VerStackMap r else s.mr2VerStackMap r
    mr2CounterMap := fun r => if r ∈ l then s.mr2CounterMap r + 1 else s.mr2CounterMap r
    resVer := fun d =>
      if d ∈ l.map chi then some ⟨d.mr, s.mr2CounterMap d.mr, d⟩ else s.resVer d }

theorem renameMuSet_eq (mu : MemRegion → MSSAMU) (hmu : ∀ r, (mu r).mr = r) (s : MemSSA)
    (l : List MemRegion) : MemSSA.RenameMuSet mu s l = { s with
      muVer := fun m => if m ∈ l.map mu then s.getTopStackVer m.mr else s.muVer m } := by
  induction l generalizing s with
  | nil => rfl
  | cons r l ih =>
      have hstep := ih (s.setVer (mu r) (s.getTopStackVer r))
      rw [MemSSA.RenameMuSet] at hstep ⊢
      rw [List.foldl_cons, hstep]
      simp only [MemSSA.setVer, MemSSA.getTopStackVer, MemSSA.mk.injEq, true_and, and_true,
        List.map_cons, List.mem_cons]
      funext m
      by_cases hm : m = mu r
      · subst hm
        simp [hmu]
      · simp [hm]

variable {chi : MemRegion → MSSADEF} (hchi : ∀ r, (chi r).mr = r)

include hchi

theorem mem_map_chi {d : MSSADEF} {l : List MemRegion} :
    d ∈ l.map chi ↔ d.mr ∈ l ∧ chi d.mr = d := by
  rw [List.mem_map]
  constructor
  · rintro ⟨r, hr, rfl⟩
    rw [hchi]
    exact ⟨hr, rfl⟩
  · rintro ⟨hd, heq⟩
    exact ⟨d.mr, hd, heq⟩

theorem newSSAName_eq (s : MemSSA) (r : MemRegion) :
    (s.newSSAName r (chi r)).1.setResVer (chi r) (s.newSSAName r (chi r)).2 =
      pushDefs chi s [r] := by
  simp only [MemSSA.newSSAName, MemSSA.setResVer, pushDefs, MemSSA.mk.injEq, true_and, and_true]
  refine ⟨?_, ?_, ?_⟩
  · funext x
    by_cases hx : x = r
    · subst hx
      simp
    · simp [hx]
  · funext x
    by_cases hx : x = r
    · subst hx
      simp
    · simp [hx]
  · funext d
    by_cases hd : d = chi r
    · subst hd
      simp [hchi]
    · simp [hd]

theorem pushDefs_cons (s : MemSSA) {r : MemRegion} {l : List MemRegion} (hr : r ∉ l) :
    pushDefs chi (pushDefs chi s [r]) l = pushDefs chi s (r :: l) := by
  simp only [pushDefs, MemSSA.mk.injEq, true_and, and_true, List.mem_cons, List.not_mem_nil,
    or_false, List.map_cons, List.map_nil]
  refine ⟨?_, ?_, ?_⟩
  · funext x
    by_cases hx : x = r
    · subst hx
      simp [hr]
    · simp [hx]
  · funext x
    by_cases hx : x = r
    · subst hx
      simp [hr]
    · simp [hx]
  · funext d
    by_cases hd : d = chi r
    · subst hd
      simp only [mem_map_chi hchi, hchi, hr, false_and, or_false, if_true, if_false]
    · by_cases hmem : d ∈ l.map chi
      · have hne : d.mr ≠ r := fun heq => hr (heq ▸ ((mem_map_chi hchi).mp hmem).1)
        simp [hd, hmem, hne]
      · simp [hd, hmem]

omit hchi in
theorem renamePhiRes_eq (b : BasicBlock) (s : MemSSA) (regs l : List MemRegion) (hl : l.Nodup) :
    MemSSA.RenamePhiRes b (s, regs) l = (pushDefs (.phi b) s l, l.reverse ++ regs) := by
  induction l generalizing s regs with
  | nil => rfl
  | cons r l ih =>
      obtain ⟨hr, hl⟩ := List.nodup_cons.mp hl
      have hstep := ih (pushDefs (.phi b) s [r]) (r :: regs) hl
      have hname : (s.newSSAName r (.phi b r)).1.setResVer (.phi b r)
          (s.newSSAName r (.phi b r)).2 = pushDefs (.phi b) s [r] :=
        newSSAName_eq (fun _ => rfl) s r
      rw [MemSSA.RenamePhiRes] at hstep ⊢
      rw [List.foldl_cons]
      simp only [hname]
      rw [hstep, pushDefs_cons (fun _ => rfl) s hr]
      simp

def setOps (chi : MemRegion → MSSADEF) (s : MemSSA) (l : List MemRegion) : MemSSA :=
  { s with opVer := fun d => if d ∈ l.map chi then s.getTopStackVer d.mr else s.opVer d }

theorem renameChiSet_eq (s : MemSSA) (regs l : List MemRegion) (hl : l.Nodup) :
    MemSSA.RenameChiSet chi (s, regs) l =
      (pushDefs chi (setOps chi s l) l, l.reverse ++ regs) := by
  induction l generalizing s regs with
  | nil => rfl
  | cons r l ih =>
      obtain ⟨hr, hl⟩ := List.nodup_cons.mp hl
      have hstep := ih (pushDefs chi (s.setOpVer (chi r) (s.getTopStackVer r)) [r]) (r :: regs) hl
      have hname := newSSAName_eq hchi (s.setOpVer (chi r) (s.getTopStackVer r)) r
      have hops : setOps chi (pushDefs chi (s.setOpVer (chi r) (s.getTopStackVer r)) [r]) l =
          pushDefs chi (setOps chi s (r :: l)) [r] := by
        simp only [setOps, pushDefs, MemSSA.setOpVer, MemSSA.getTopStackVer, MemSSA.mk.injEq,
          true_and, and_true]
        funext d
        by_cases hd : d = chi r
        · subst hd
          simp [mem_map_chi hchi, hchi, hr]
        · by_cases hmem : d ∈ l.map chi
          · have hne : d.mr ≠ r := fun heq => hr (heq ▸ ((mem_map_chi hchi).mp hmem).1)
            simp [hd, hmem, hne]
          · simp [hd, hmem]
      rw [MemSSA.RenameChiSet] at hstep ⊢
      rw [List.foldl_cons]
      simp only [hname]
      rw [hstep, hops, pushDefs_cons hchi _ hr]
      simp

end

end SVF.MSSA.Renaming
