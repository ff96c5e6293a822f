import Mathlib.Data.Int.Notation
import Mathlib.Data.List.Basic

namespace SVF.Util.TextFiles

abbrev Text := List Char

def number (n : ℕ) : Text := Nat.toDigits 10 n

def spaced (ns : List ℕ) : Text := ns.flatMap fun n => number n ++ [' ']

def separated : List ℕ → Text
  | [] => []
  | [n] => number n
  | n :: m :: ns => number n ++ ' ' :: separated (m :: ns)

def integer (z : ℤ) : Text := if z < 0 then '-' :: number z.natAbs else number z.natAbs

def unlines (ls : List Text) : Text := ls.flatMap fun l => l ++ ['\n']

/-- The lines that `getline` reads as long as the stream is good; the last one is what
comes after the last end of a line. -/
def lines : Text → List Text
  | [] => [[]]
  | c :: s => if c = '\n' then [] :: lines s else (c :: (lines s).headD []) :: (lines s).tail

/-- `find`, with `none` for `npos`. -/
def find (pat : Text) : Text → Option ℕ
  | [] => if pat = [] then some 0 else none
  | c :: s => if pat.isPrefixOf (c :: s) then some 0 else (find pat s).map (· + 1)

def after (pos : Option ℕ) (length : ℕ) : ℕ := (pos.map (· + length)).getD (length - 1)

def substr (s : Text) (pos : ℕ) (len : Option ℕ) : Text :=
  len.elim (s.drop pos) fun len => (s.drop pos).take len

def isSpace (c : Char) : Bool := c ∈ [' ', '\t', '\n', '\u000b', '\u000c', '\r']

/-- `>>` to a variable of an unsigned type, which has the value `old`. The stream is
`none` when it is no longer good. -/
def extract (max old : ℕ) (s : Text) : ℕ × Option Text :=
  let s := s.dropWhile isSpace
  let digits := s.takeWhile Char.isDigit
  let rest := s.dropWhile Char.isDigit
  if s = [] then (old, none)
  else if digits = [] then (0, none)
  else if max < Nat.ofDigitChars 10 digits 0 then (max, none)
  else (Nat.ofDigitChars 10 digits 0, if rest = [] then none else some rest)

def extracted (max : ℕ) : ℕ → ℕ → Text → List ℕ
  | 0, _, _ => []
  | fuel + 1, old, s =>
    let (n, rest) := extract max old s
    n :: rest.elim [] (extracted max fuel n)

def extractAll (max : ℕ) (s : Text) : List ℕ := extracted max (s.length + 1) 0 s

/-- `substr` from `next` with the length `last - next`, up to the end where `last` is `npos`;
`none` where the position is out of range. -/
def between (s : Text) (next : ℕ) (last : Option ℕ) : Option Text :=
  if s.length < next then none
  else some (last.elim (s.drop next) fun last =>
    if last < next then s.drop next else (s.drop next).take (last - next))

/-- What `getline` with a separator reads as long as it does not fail. -/
def fields (sep : Char) : Text → List Text
  | [] => []
  | c :: s => if c = sep then [] :: fields sep s
      else (c :: (fields sep s).headD []) :: (fields sep s).tail

/-- The number that `>>` finds, or `none` where there is nothing left and the variable keeps
its value. -/
def extractInt (s : Text) : Option ℤ :=
  let s := s.dropWhile isSpace
  let sign := s.headD '0' = '-'
  let digits := (if sign ∨ s.headD '0' = '+' then s.tail else s).takeWhile Char.isDigit
  let n : ℤ := Nat.ofDigitChars 10 digits 0
  if s = [] then none else some (if sign then -n else n)

section

variable {n : ℕ} {c : Char}

theorem isDigit_of_mem_number (h : c ∈ number n) : c.isDigit = true :=
  Nat.isDigit_of_mem_toDigits (by omega) (by omega) h

theorem number_ne_nil : number n ≠ [] := Nat.toDigits_ne_nil

theorem notMem_number (h : c.isDigit = false) : c ∉ number n := fun hc =>
  Bool.false_ne_true (h.symm.trans (isDigit_of_mem_number hc))

theorem isSpace_of_isDigit (h : c.isDigit = true) : isSpace c = false := by
  rw [isSpace, decide_eq_false_iff_not]
  intro hmem
  simp only [List.mem_cons, List.not_mem_nil, or_false] at hmem
  rcases hmem with rfl | rfl | rfl | rfl | rfl | rfl <;> exact absurd h (by decide)

theorem takeWhile_number (s : Text) (hs : ∀ d ∈ s.head?, d.isDigit = false) :
    (number n ++ s).takeWhile Char.isDigit = number n ∧
      (number n ++ s).dropWhile Char.isDigit = s := by
  have hall : ∀ c ∈ number n, c.isDigit = true := fun c => isDigit_of_mem_number
  rw [List.takeWhile_append_of_pos hall, List.dropWhile_append_of_pos hall]
  cases s with
  | nil => simp
  | cons d s => simp [hs d rfl]

theorem extract_number {max : ℕ} (hn : n ≤ max) (old : ℕ) (s : Text)
    (hs : ∀ d ∈ s.head?, d.isDigit = false) :
    extract max old (number n ++ s) = (n, if s = [] then none else some s) := by
  have hskip : (number n ++ s).dropWhile isSpace = number n ++ s := by
    cases hnum : number n with
    | nil => exact absurd hnum number_ne_nil
    | cons d ds =>
        have hd : d.isDigit = true := isDigit_of_mem_number (hnum ▸ List.mem_cons_self)
        rw [List.cons_append, List.dropWhile_cons, isSpace_of_isDigit hd]
        rfl
  have hne : number n ++ s ≠ [] := fun h => number_ne_nil (List.append_eq_nil_iff.mp h).1
  obtain ⟨htake, hdrop⟩ := takeWhile_number (n := n) s hs
  have hvalue : Nat.ofDigitChars 10 (number n) 0 = n := Nat.ofDigitChars_ten_toDigits
  rw [extract, hskip, htake, hdrop, if_neg hne, if_neg number_ne_nil, hvalue, if_neg (Nat.not_lt.mpr hn)]

theorem extract_space {max old : ℕ} (s : Text) : extract max old (' ' :: s) = extract max old s := by
  have hskip : (' ' :: s).dropWhile isSpace = s.dropWhile isSpace := rfl
  rw [extract, extract, hskip]

theorem extracted_separated {max : ℕ} {ns : List ℕ} (hns : ∀ n ∈ ns, n ≤ max) (hne : ns ≠ [])
    (fuel old : ℕ) (hfuel : (separated ns).length < fuel) (s : Text) (hs : s = [] ∨ s = [' ']) :
    extracted max fuel old (s ++ separated ns) = ns := by
  induction ns generalizing fuel old s with
  | nil => contradiction
  | cons n ns ih =>
      obtain ⟨hn, hrest⟩ := List.forall_mem_cons.mp hns
      cases fuel with
      | zero => exact absurd hfuel (Nat.not_lt_zero _)
      | succ fuel =>
          have hskip : ∀ t, extract max old (s ++ t) = extract max old t := by
            intro t
            rcases hs with rfl | rfl
            · rfl
            · exact extract_space t
          rw [extracted, hskip]
          cases ns with
          | nil =>
              have hlast := extract_number hn old [] (by simp)
              rw [List.append_nil] at hlast
              rw [separated, hlast]
              rfl
          | cons m ns =>
              rw [separated, extract_number hn old _ (by simp), if_neg (List.cons_ne_nil _ _)]
              rw [separated, List.length_append, List.length_cons] at hfuel
              have hnext := ih hrest (List.cons_ne_nil m ns) fuel n (by omega) [' '] (.inr rfl)
              exact congrArg (n :: ·) hnext

theorem extractAll_separated {max : ℕ} {ns : List ℕ} (hns : ∀ n ∈ ns, n ≤ max) (hne : ns ≠ []) :
    extractAll max (separated ns) = ns :=
  extracted_separated hns hne _ 0 (Nat.lt_succ_self _) [] (.inl rfl)

theorem separated_ne_nil {ns : List ℕ} (h : ns ≠ []) : separated ns ≠ [] := by
  cases ns with
  | nil => contradiction
  | cons n ns =>
      cases ns with
      | nil => exact number_ne_nil
      | cons m ns =>
          intro heq
          exact number_ne_nil (List.append_eq_nil_iff.mp heq).1

theorem notMem_spaced {c : Char} {ns : List ℕ} (hdigit : c.isDigit = false) (hspace : c ≠ ' ') :
    c ∉ spaced ns := by
  intro hc
  obtain ⟨n, -, hmem⟩ := List.mem_flatMap.mp hc
  rcases List.mem_append.mp hmem with hmem | hmem
  · exact notMem_number hdigit hmem
  · exact hspace (List.mem_singleton.mp hmem)

theorem spaced_eq {ns : List ℕ} (h : ns ≠ []) : spaced ns = separated ns ++ [' '] := by
  induction ns with
  | nil => exact absurd rfl h
  | cons n ns ih =>
      cases ns with
      | nil => simp [spaced, separated]
      | cons m ns =>
          have hrest := ih (List.cons_ne_nil m ns)
          rw [spaced, List.flatMap_cons, ← spaced, hrest, separated]
          simp

theorem notMem_integer {c : Char} {z : ℤ} (hdigit : c.isDigit = false) (hsign : c ≠ '-') :
    c ∉ integer z := by
  intro hc
  rw [integer] at hc
  split at hc
  · rcases List.mem_cons.mp hc with h | h
    · exact hsign h
    · exact notMem_number hdigit h
  · exact notMem_number hdigit hc

theorem extractInt_integer (z : ℤ) (s : Text) (hs : ∀ d ∈ s.head?, d.isDigit = false) :
    extractInt (integer z ++ s) = some z := by
  obtain ⟨htake, -⟩ := takeWhile_number (n := z.natAbs) s hs
  have hvalue : Nat.ofDigitChars 10 (number z.natAbs) 0 = z.natAbs := Nat.ofDigitChars_ten_toDigits
  rw [integer]
  split
  · rename_i hz
    have hskip : ('-' :: number z.natAbs ++ s).dropWhile isSpace = '-' :: number z.natAbs ++ s := rfl
    rw [extractInt, hskip]
    simp only [List.cons_append, List.headD_cons, true_or, if_true, List.tail_cons, htake, hvalue,
      reduceCtorEq, if_false]
    exact congrArg some (by omega)
  · rename_i hz
    cases hnum : number z.natAbs with
    | nil => exact absurd hnum number_ne_nil
    | cons d ds =>
        have hd : d.isDigit = true := isDigit_of_mem_number (hnum ▸ List.mem_cons_self)
        have hskip : (d :: ds ++ s).dropWhile isSpace = d :: ds ++ s := by
          rw [List.cons_append, List.dropWhile_cons, isSpace_of_isDigit hd]
          rfl
        have hminus : d ≠ '-' := fun h => absurd hd (by rw [h]; decide)
        have hplus : d ≠ '+' := fun h => absurd hd (by rw [h]; decide)
        rw [hnum, List.cons_append] at htake
        rw [extractInt, hskip]
        simp only [List.cons_append, List.headD_cons, hminus, hplus, false_or, if_false, htake,
          reduceCtorEq]
        rw [← hnum, hvalue]
        exact congrArg some (by omega)

end

section

variable {pre a b post : Text} {c : Char}

theorem find_start (pat post : Text) : find pat (pat ++ post) = some 0 := by
  cases hs : pat ++ post with
  | nil =>
      rw [find, if_pos (List.append_eq_nil_iff.mp hs).1]
  | cons d s =>
      have hprefix : pat.isPrefixOf (d :: s) = true := by
        rw [List.isPrefixOf_iff_prefix, ← hs]
        exact List.prefix_append pat post
      rw [find, if_pos hprefix]

theorem not_prefix_of_notMem (hpre : c ∉ pre) (hne : pre ≠ []) (ha : c ∉ a) :
    ¬ (a ++ c :: b) <+: pre ++ (a ++ c :: b) ++ post := by
  rintro ⟨t, ht⟩
  have hget := congrArg (fun l : Text => l[a.length]?) ht
  have hlt : a.length < (pre ++ a).length := by
    have hpos := List.length_pos_iff.mpr hne
    rw [List.length_append]
    omega
  have hassoc : pre ++ (a ++ c :: b) ++ post = (pre ++ a) ++ (c :: b ++ post) := by simp
  have hleft : (a ++ c :: b ++ t)[a.length]? = some c := by simp
  rw [hassoc] at hget
  rw [hleft, List.getElem?_append_left hlt] at hget
  have hmem := List.mem_of_getElem? hget.symm
  rcases List.mem_append.mp hmem with h | h
  · exact hpre h
  · exact ha h

theorem find_append (hpre : c ∉ pre) (ha : c ∉ a) :
    find (a ++ c :: b) (pre ++ (a ++ c :: b) ++ post) = some pre.length := by
  induction pre with
  | nil => exact find_start _ post
  | cons d pre ih =>
      have hnot : ¬ List.isPrefixOf (a ++ c :: b) (d :: pre ++ (a ++ c :: b) ++ post) = true := by
        rw [List.isPrefixOf_iff_prefix]
        exact not_prefix_of_notMem hpre (List.cons_ne_nil d pre) ha
      rw [List.cons_append, List.cons_append] at hnot ⊢
      rw [find, if_neg hnot, ih fun h => hpre (List.mem_cons_of_mem d h)]
      rfl

theorem find_none (hs : c ∉ pre) : find (a ++ c :: b) pre = none := by
  induction pre with
  | nil => simp [find]
  | cons d pre ih =>
      have hnot : ¬ List.isPrefixOf (a ++ c :: b) (d :: pre) = true := by
        rw [List.isPrefixOf_iff_prefix]
        exact fun h => hs (h.subset (List.mem_append_right a List.mem_cons_self))
      rw [find, if_neg hnot, ih fun h => hs (List.mem_cons_of_mem d h)]
      rfl

theorem find_of_mem {pat : Text} (hpat : c ∈ pat) (hpre : c ∉ pre) :
    find pat (pre ++ pat ++ post) = some pre.length := by
  obtain ⟨a, b, rfl, ha⟩ := List.eq_append_cons_of_mem hpat
  exact find_append hpre ha

theorem find_eq_none {pat : Text} (hpat : c ∈ pat) (hs : c ∉ pre) : find pat pre = none := by
  obtain ⟨a, b, rfl, -⟩ := List.eq_append_cons_of_mem hpat
  exact find_none hs

theorem find_pair_skip {c d x : Char} {seg rest : Text} (hseg : c ∉ seg) (hx : x ≠ d) :
    find [c, d] (seg ++ c :: x :: rest) =
      (find [c, d] (x :: rest)).map (· + (seg.length + 1)) := by
  induction seg with
  | nil =>
      have hnot : ¬ List.isPrefixOf [c, d] (c :: x :: rest) = true := by
        simp [Ne.symm hx]
      rw [List.nil_append, find, if_neg hnot]
      rfl
  | cons y seg ih =>
      have hy : c ≠ y := fun h => hseg (h ▸ List.mem_cons_self)
      have hnot : ¬ List.isPrefixOf [c, d] (y :: (seg ++ c :: x :: rest)) = true := by
        simp [hy]
      rw [List.cons_append, find, if_neg hnot, ih fun h => hseg (List.mem_cons_of_mem y h),
        Option.map_map]
      rfl

theorem find_inner_skip {e c d x : Char} {seg rest : Text} (hseg : c ∉ seg) (he : e ≠ c)
    (hx : x ≠ d) : find (e :: c :: d :: b) (seg ++ c :: x :: rest) =
      (find (e :: c :: d :: b) (x :: rest)).map (· + (seg.length + 1)) := by
  induction seg with
  | nil =>
      have hnot : ¬ List.isPrefixOf (e :: c :: d :: b) (c :: x :: rest) = true := by
        simp [he]
      rw [List.nil_append, find, if_neg hnot]
      rfl
  | cons y seg ih =>
      have hnot : ¬ List.isPrefixOf (e :: c :: d :: b) (y :: (seg ++ c :: x :: rest)) = true := by
        cases seg with
        | nil => simp [Ne.symm hx]
        | cons z seg =>
            have hz : c ≠ z := fun h =>
              hseg (h ▸ List.mem_cons_of_mem y List.mem_cons_self)
            simp [hz]
      rw [List.cons_append, find, if_neg hnot, ih fun h => hseg (List.mem_cons_of_mem y h),
        Option.map_map]
      rfl

theorem between_middle (l m r : Text) :
    between (l ++ m ++ r) l.length (some (l ++ m).length) = some m := by
  have hlength : ¬ (l ++ m ++ r).length < l.length := by simp
  have hlast : ¬ (l ++ m).length < l.length := by simp
  rw [between, if_neg hlength, Option.elim_some, if_neg hlast]
  simp

theorem between_found {s pat mid pat' : Text} (hs : s = pre ++ pat ++ mid ++ pat' ++ post)
    {c d : Char} (hpat : c ∈ pat) (hpre : c ∉ pre) (hpat' : d ∈ pat')
    (hpre' : d ∉ pre ++ pat ++ mid) :
    between s (after (find pat s) pat.length) (find pat' s) = some mid := by
  have hfirst : find pat s = some pre.length := by
    rw [hs, List.append_assoc _ pat', List.append_assoc _ mid]
    exact find_of_mem hpat hpre
  have hsecond : find pat' s = some (pre ++ pat ++ mid).length := by
    rw [hs]
    exact find_of_mem hpat' hpre'
  have hpos : after (some pre.length) pat.length = (pre ++ pat).length := List.length_append.symm
  rw [hfirst, hsecond, hpos, hs, List.append_assoc _ pat']
  exact between_middle (pre ++ pat) mid (pat' ++ post)

theorem between_end (l m : Text) : between (l ++ m) l.length none = some m := by
  have hlength : ¬ (l ++ m).length < l.length := by simp
  rw [between, if_neg hlength]
  simp

theorem substr_middle (l m r : Text) : substr (l ++ m ++ r) l.length (some m.length) = m := by
  simp [substr]

end

theorem lines_append {l : Text} (hl : '\n' ∉ l) (s : Text) :
    lines (l ++ '\n' :: s) = l :: lines s := by
  induction l with
  | nil => rfl
  | cons c l ih =>
      have hc : c ≠ '\n' := fun h => hl (h ▸ List.mem_cons_self)
      rw [List.cons_append, lines, if_neg hc, ih fun h => hl (List.mem_cons_of_mem c h)]
      rfl

theorem fields_append {sep : Char} {l : Text} (hl : sep ∉ l) (s : Text) :
    fields sep (l ++ sep :: s) = l :: fields sep s := by
  induction l with
  | nil => exact if_pos rfl
  | cons c l ih =>
      have hc : c ≠ sep := fun h => hl (h ▸ List.mem_cons_self)
      rw [List.cons_append, fields, if_neg hc, ih fun h => hl (List.mem_cons_of_mem c h)]
      rfl

theorem fields_terminated {sep : Char} {ls : List Text} (hls : ∀ l ∈ ls, sep ∉ l) :
    fields sep (ls.flatMap fun l => l ++ [sep]) = ls := by
  induction ls with
  | nil => rfl
  | cons l ls ih =>
      obtain ⟨hl, hrest⟩ := List.forall_mem_cons.mp hls
      rw [List.flatMap_cons, List.append_assoc, List.singleton_append, fields_append hl, ih hrest]

theorem lines_unlines {ls : List Text} (hls : ∀ l ∈ ls, '\n' ∉ l) (s : Text) :
    lines (unlines ls ++ s) = ls ++ lines s := by
  induction ls with
  | nil => rfl
  | cons l ls ih =>
      obtain ⟨hl, hrest⟩ := List.forall_mem_cons.mp hls
      rw [unlines, List.flatMap_cons, ← unlines, List.append_assoc, List.append_assoc,
        List.singleton_append, lines_append hl, ih hrest]
      rfl

end SVF.Util.TextFiles
