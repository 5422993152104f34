import Unfydqry.Engine.Regions

/-! # The table of prefix lengths

The two binary searches of `highlight_raw` look for a place among the raw prefixes. Of the
prefixes that it reads, a search finds the last one that counts as short of the offset, or
the first one that does not. Where longer prefixes do not normalize to fewer bytes that is
the last or the first one of all. -/

namespace Unfydqry.Highlight

open PartitionPoint

/-! ### The prefixes of a text -/

/-- The prefixes of `p ++ s` that are longer than `p`, in order. -/
def prefixesFrom (p : Text) : Text → List Text
  | [] => []
  | c :: s => (p ++ [c]) :: prefixesFrom (p ++ [c]) s

def prefixes (s : Text) : List Text := [] :: prefixesFrom [] s

theorem mem_prefixesFrom (p s q : Text) :
    q ∈ prefixesFrom p s ↔ ∃ t, t ≠ [] ∧ t <+: s ∧ q = p ++ t := by
  induction s generalizing p with
  | nil => simp [prefixesFrom]
  | cons c s ih =>
    rw [prefixesFrom, List.mem_cons, ih]
    constructor
    · rintro (rfl | ⟨t, _, ht, rfl⟩)
      · exact ⟨[c], by simp, List.cons_prefix_cons.mpr ⟨rfl, List.nil_prefix⟩, rfl⟩
      · exact ⟨c :: t, by simp, List.cons_prefix_cons.mpr ⟨rfl, ht⟩, by simp⟩
    · rintro ⟨t, hne, ht, rfl⟩
      cases t with
      | nil => exact absurd rfl hne
      | cons d t =>
        obtain ⟨rfl, hrest⟩ := List.cons_prefix_cons.mp ht
        by_cases hnil : t = []
        · exact .inl (by rw [hnil])
        · exact .inr ⟨t, hnil, hrest, by simp⟩

theorem mem_prefixes (s q : Text) : q ∈ prefixes s ↔ q <+: s := by
  rw [prefixes, List.mem_cons, mem_prefixesFrom]
  constructor
  · rintro (rfl | ⟨t, _, ht, rfl⟩)
    · exact List.nil_prefix
    · exact ht
  · intro h
    by_cases hnil : q = []
    · exact .inl hnil
    · exact .inr ⟨q, hnil, h, rfl⟩

theorem prefixesFrom_pairwise (p s : Text) :
    (prefixesFrom p s).Pairwise (· <+: ·) ∧ ∀ q ∈ prefixesFrom p s, p <+: q := by
  induction s generalizing p with
  | nil => simp [prefixesFrom]
  | cons c s ih =>
    obtain ⟨hsorted, hfirst⟩ := ih (p ++ [c])
    refine ⟨List.pairwise_cons.mpr ⟨hfirst, hsorted⟩, ?_⟩
    intro q hq
    rcases List.mem_cons.mp hq with rfl | hq
    · exact List.prefix_append _ _
    · exact (List.prefix_append _ _).trans (hfirst q hq)

theorem prefixes_pairwise (s : Text) : (prefixes s).Pairwise (· <+: ·) :=
  List.pairwise_cons.mpr ⟨fun _ _ => List.nil_prefix, (prefixesFrom_pairwise [] s).1⟩

theorem getElem?_prefixesFrom (p s : Text) (i : ℕ) :
    (prefixesFrom p s)[i]? = if i < s.length then some (p ++ s.take (i + 1)) else none := by
  induction s generalizing p i with
  | nil => rfl
  | cons c s ih =>
    cases i with
    | zero => simp [prefixesFrom]
    | succ i =>
      rw [prefixesFrom, List.getElem?_cons_succ, ih]
      simp

theorem getElem?_prefixes (s : Text) (i : ℕ) :
    (prefixes s)[i]? = if i ≤ s.length then some (s.take i) else none := by
  cases i with
  | zero => simp [prefixes]
  | succ i =>
    rw [prefixes, List.getElem?_cons_succ, getElem?_prefixesFrom, List.nil_append]
    rfl

theorem length_prefixes (s : Text) : (prefixes s).length = s.length + 1 := by
  have hfrom : ∀ p : Text, (prefixesFrom p s).length = s.length := by
    induction s with
    | nil => exact fun _ => rfl
    | cons c s ih => exact fun p => congrArg (· + 1) (ih (p ++ [c]))
  rw [prefixes, List.length_cons, hfrom]

theorem take_prefix_take {s : Text} {i j : ℕ} (hi : i ≤ s.length) :
    s.take i <+: s.take j ↔ i ≤ j := by
  rw [List.prefix_take_iff]
  simp [hi, List.take_prefix]

theorem byteLen_take_lt {s : Text} {i j : ℕ} (hj : j ≤ s.length) :
    byteLen (s.take i) < byteLen (s.take j) ↔ i < j := by
  rw [prefix_of_byteLen_lt (List.take_prefix i s) (List.take_prefix j s), take_prefix_take hj]
  exact Nat.not_le

/-! ### What the table says of a prefix -/

/-- The table counts the prefix as shorter than `n` bytes: it is, and the table was not filled
up before with a length of `m` bytes or more. -/
def short (normalize : Text → Text) (m n : ℕ) (p : Text) : Bool :=
  decide (byteLen (normalize p) < n) && (prefixes p).all fun q => byteLen (normalize q) < m

/-- The length the table holds for a prefix: from the first one of at least `m` bytes on it is
`top`. -/
def tableLen (normalize : Text → Text) (m top : ℕ) (p : Text) : ℕ :=
  if (prefixes p).all fun q => byteLen (normalize q) < m then byteLen (normalize p) else top

theorem short_iff {normalize : Text → Text} {m n : ℕ} {p : Text} :
    short normalize m n p = true ↔
      byteLen (normalize p) < n ∧ ∀ q, q <+: p → byteLen (normalize q) < m := by
  rw [short, Bool.and_eq_true, decide_eq_true_iff, List.all_eq_true]
  simp only [mem_prefixes, decide_eq_true_eq]

theorem short_mono (normalize : Text → Text) (m : ℕ) {n n' : ℕ} (h : n ≤ n') (p : Text)
    (hp : short normalize m n p = true) : short normalize m n' p = true := by
  rw [short_iff] at hp ⊢
  exact ⟨hp.1.trans_le h, hp.2⟩

theorem tableLen_lt_iff (normalize : Text → Text) {m top n : ℕ} (htop : m ≤ top) (hn : n ≤ m)
    (p : Text) : tableLen normalize m top p < n ↔ short normalize m n p = true := by
  rw [tableLen, short, Bool.and_eq_true, decide_eq_true_iff]
  split
  · rename_i hall
    exact (and_iff_left hall).symm
  · rename_i hall
    exact iff_of_false (by omega) fun h => hall h.2

theorem fillBounds_eq (p cs : Text) (top : ℕ) :
    fillBounds (byteLen p) top cs = (prefixesFrom p cs).map fun q => (byteLen q, top) := by
  induction cs generalizing p with
  | nil => rfl
  | cons c cs ih =>
    have hlen : byteLen p + c.utf8Size = byteLen (p ++ [c]) := by
      rw [byteLen_append]
      rfl
    rw [fillBounds, hlen, ih, prefixesFrom, List.map_cons]

theorem boundsFrom_eq (normalize : Text → Text) (m : ℕ) (p cs : Text)
    (hp : ∀ q, q <+: p → byteLen (normalize q) < m) :
    ∃ top, m ≤ top ∧ boundsFrom normalize m p cs =
      (prefixesFrom p cs).map fun q => (byteLen q, tableLen normalize m top q) := by
  induction cs generalizing p with
  | nil => exact ⟨m, le_refl m, rfl⟩
  | cons c cs ih =>
    rw [boundsFrom, prefixesFrom]
    by_cases hcross : byteLen (normalize (p ++ [c])) ≥ m
    · refine ⟨byteLen (normalize (p ++ [c])), hcross, ?_⟩
      -- what follows starts with the prefix that fills up the table
      have hfilled : ∀ q, p ++ [c] <+: q →
          tableLen normalize m (byteLen (normalize (p ++ [c]))) q =
            byteLen (normalize (p ++ [c])) := by
        intro q hq
        rw [tableLen, if_neg]
        intro hall
        have hlt := List.all_eq_true.mp hall _ ((mem_prefixes _ _).mpr hq)
        rw [decide_eq_true_iff] at hlt
        omega
      rw [if_pos hcross, fillBounds_eq, List.map_cons, hfilled _ (List.prefix_refl _)]
      congr 1
      refine List.map_congr_left fun q hq => ?_
      rw [hfilled q ((prefixesFrom_pairwise _ _).2 q hq)]
    · have hnext : ∀ q, q <+: p ++ [c] → byteLen (normalize q) < m := by
        intro q hq
        rcases List.prefix_concat_iff.mp hq with rfl | hq
        · omega
        · exact hp q hq
      obtain ⟨top, htop, hrest⟩ := ih (p ++ [c]) hnext
      have hself : tableLen normalize m top (p ++ [c]) = byteLen (normalize (p ++ [c])) := by
        rw [tableLen, if_pos]
        refine List.all_eq_true.mpr fun q hq => ?_
        exact decide_eq_true (hnext q ((mem_prefixes _ _).mp hq))
      refine ⟨top, htop, ?_⟩
      rw [if_neg hcross, hrest, List.map_cons, hself]

/-! ### What the searches find -/

/-- The binary search for `n` bytes reads the prefix. -/
def ReadsPrefix (normalize : Text → Text) (raw : Text) (m n : ℕ) (p : Text) : Prop :=
  ∃ i, Reads (short normalize m n) (prefixes raw) i ∧ (prefixes raw)[i]? = some p

/-- The place of the search for `n` bytes among the prefixes. -/
def place (normalize : Text → Text) (raw : Text) (m n : ℕ) : ℕ :=
  partitionPoint (short normalize m n) (prefixes raw)

section Table

variable {normalize : Text → Text} {raw : Text} (hnil : normalize [] = []) {m : ℕ}

theorem ReadsPrefix.prefix {n : ℕ} {p : Text} (h : ReadsPrefix normalize raw m n p) :
    p <+: raw := by
  obtain ⟨i, _, hp⟩ := h
  exact (mem_prefixes raw p).mp (List.mem_of_getElem? hp)

theorem readsPrefix_take {n i : ℕ} (h : Reads (short normalize m n) (prefixes raw) i)
    (hi : i ≤ raw.length) : ReadsPrefix normalize raw m n (raw.take i) :=
  ⟨i, h, by rw [getElem?_prefixes, if_pos hi]⟩

/-- The search splits the prefixes that it reads at its place. -/
theorem short_iff_lt_place {n i : ℕ} (h : Reads (short normalize m n) (prefixes raw) i)
    (hi : i ≤ raw.length) :
    short normalize m n (raw.take i) = true ↔ i < place normalize raw m n := by
  have hsplit := (partitionPoint_cuts (short normalize m n) (prefixes raw)).split i h
  rwa [getElem?_prefixes, if_pos hi, Option.any_some] at hsplit

theorem place_mono {n n' : ℕ} (h : n ≤ n') :
    place normalize raw m n ≤ place normalize raw m n' :=
  partitionPoint_mono (short_mono normalize m h)

/-- One place lies before another just when the search for the later one reads a prefix
between the two offsets. -/
theorem place_lt_iff {n n' : ℕ} (h : n ≤ n') :
    place normalize raw m n < place normalize raw m n' ↔
      ∃ p, ReadsPrefix normalize raw m n' p ∧ (∀ q, q <+: p → byteLen (normalize q) < m) ∧
        n ≤ byteLen (normalize p) ∧ byteLen (normalize p) < n' := by
  have hbetween : ∀ p, (∀ q, q <+: p → byteLen (normalize q) < m) ∧
      n ≤ byteLen (normalize p) ∧ byteLen (normalize p) < n' ↔
        short normalize m n' p = true ∧ ¬ short normalize m n p = true := by
    intro p
    rw [short_iff, short_iff, ← Nat.not_lt]
    tauto
  rw [place, place, partitionPoint_lt_iff (short_mono normalize m h)]
  simp only [hbetween]
  constructor
  · rintro ⟨i, hi, hlong, hshort⟩
    cases hp : (prefixes raw)[i]? with
    | none =>
      rw [hp] at hlong
      cases hlong
    | some p =>
      rw [hp] at hlong hshort
      exact ⟨p, ⟨i, hi, hp⟩, hlong, hshort⟩
  · rintro ⟨p, ⟨i, hi, hp⟩, hlong, hshort⟩
    refine ⟨i, hi, ?_, ?_⟩
    · rw [hp]
      exact hlong
    · rw [hp]
      exact hshort

include hnil

variable (raw) in
theorem bounds_eq (hm : 0 < m) : ∃ top, m ≤ top ∧ bounds normalize m raw =
    (prefixes raw).map fun q => (byteLen q, tableLen normalize m top q) := by
  have hstart : ∀ q : Text, q <+: [] → byteLen (normalize q) < m := by
    intro q hq
    rw [List.prefix_nil.mp hq, hnil]
    exact hm
  obtain ⟨top, htop, hrest⟩ := boundsFrom_eq normalize m [] raw hstart
  refine ⟨top, htop, ?_⟩
  have hfirst : tableLen normalize m top [] = 0 := by
    rw [tableLen, if_pos, hnil, byteLen_nil]
    exact List.all_eq_true.mpr fun q hq => decide_eq_true (hstart q ((mem_prefixes _ _).mp hq))
  rw [bounds, hrest, prefixes, List.map_cons, hfirst]
  rfl

theorem partitionPoint_bounds {n : ℕ} (hm : 0 < m) (hn : n ≤ m) :
    partitionPoint (fun b : ℕ × ℕ => decide (b.2 < n)) (bounds normalize m raw) =
      place normalize raw m n := by
  obtain ⟨top, htop, htable⟩ := bounds_eq raw hnil hm
  rw [htable, partitionPoint_map, place]
  congr 1
  funext p
  rw [Bool.eq_iff_iff, Function.comp_apply, decide_eq_true_iff]
  exact tableLen_lt_iff normalize htop hn p

theorem getElem?_bounds {i : ℕ} (hm : 0 < m) (hi : i ≤ raw.length) :
    (bounds normalize m raw)[i]?.map Prod.fst = some (byteLen (raw.take i)) := by
  obtain ⟨top, _, htable⟩ := bounds_eq raw hnil hm
  rw [htable, List.getElem?_map, getElem?_prefixes, if_pos hi]
  rfl

theorem endFor_take {n : ℕ} (hm : 0 < m) (hn : n ≤ m) (hreach : n ≤ byteLen (normalize raw)) :
    place normalize raw m n ≤ raw.length ∧
      endFor raw (bounds normalize m raw) n = byteLen (raw.take (place normalize raw m n)) := by
  have hcuts := partitionPoint_cuts (short normalize m n) (prefixes raw)
  have hplace : place normalize raw m n ≤ raw.length := by
    by_contra hbehind
    have hle := hcuts.le
    rw [length_prefixes] at hle
    have hall : place normalize raw m n = raw.length + 1 := by
      unfold place at hbehind ⊢
      omega
    -- the whole text is then read last and counts as short
    have hread := hcuts.before (by unfold place at hall; omega)
    rw [show partitionPoint (short normalize m n) (prefixes raw) - 1 = raw.length by
      unfold place at hall; omega] at hread
    have hshort := (short_iff_lt_place hread (le_refl _)).mpr (by omega)
    rw [List.take_length, short_iff] at hshort
    omega
  have hentry := getElem?_bounds hnil hm hplace
  refine ⟨hplace, ?_⟩
  rw [endFor, partitionPoint_bounds hnil hm hn, hentry]
  rfl

theorem startFor_take {n : ℕ} (hn : n < m) :
    0 < place normalize raw m (n + 1) ∧
      place normalize raw m (n + 1) - 1 ≤ raw.length ∧
      startFor (bounds normalize m raw) n =
        byteLen (raw.take (place normalize raw m (n + 1) - 1)) := by
  have hcuts := partitionPoint_cuts (short normalize m (n + 1)) (prefixes raw)
  have hpos : 0 < place normalize raw m (n + 1) := by
    by_contra hzero
    have hread := hcuts.after (by rw [length_prefixes]; unfold place at hzero; omega)
    rw [show partitionPoint (short normalize m (n + 1)) (prefixes raw) = 0 by
      unfold place at hzero; omega] at hread
    have hfirst := mt (short_iff_lt_place hread (Nat.zero_le _)).mp hzero
    refine hfirst (short_iff.mpr ⟨?_, fun q hq => ?_⟩)
    · rw [List.take_zero, hnil, byteLen_nil]
      omega
    · rw [List.take_zero, List.prefix_nil] at hq
      rw [hq, hnil, byteLen_nil]
      omega
  have hle := hcuts.le
  rw [length_prefixes] at hle
  have hbound : place normalize raw m (n + 1) - 1 ≤ raw.length := by
    unfold place
    omega
  have hentry := getElem?_bounds hnil (Nat.zero_lt_of_lt hn) hbound
  have hpred : (fun b : ℕ × ℕ => decide (b.2 ≤ n)) = fun b => decide (b.2 < n + 1) := by
    funext b
    exact decide_eq_decide.mpr Nat.lt_succ_iff.symm
  refine ⟨hpos, hbound, ?_⟩
  rw [startFor, hpred, partitionPoint_bounds hnil (by omega) (by omega), if_neg (by omega), hentry]
  rfl

end Table

/-! ### The prefixes a match is traced to -/

/-- Of the prefixes that the search for `n` bytes reads, the first that does not count as
short. -/
structure FirstLong (normalize : Text → Text) (raw : Text) (m n : ℕ) (p : Text) : Prop where
  read : ReadsPrefix normalize raw m n p
  long : ¬ short normalize m n p = true
  first : ∀ q, ReadsPrefix normalize raw m n q → ¬ short normalize m n q = true → p <+: q

/-- Of the prefixes that the search for `n` bytes reads, the last that counts as short. -/
structure LastShort (normalize : Text → Text) (raw : Text) (m n : ℕ) (p : Text) : Prop where
  read : ReadsPrefix normalize raw m n p
  short : short normalize m n p = true
  last : ∀ q, ReadsPrefix normalize raw m n q → Highlight.short normalize m n q = true → q <+: p

section Traced

variable {normalize : Text → Text} {raw : Text} {m n : ℕ}

theorem FirstLong.unique {p q : Text} (hp : FirstLong normalize raw m n p)
    (hq : FirstLong normalize raw m n q) : p = q :=
  (hp.first q hq.read hq.long).eq_of_length_le (hq.first p hp.read hp.long).length_le

theorem LastShort.unique {p q : Text} (hp : LastShort normalize raw m n p)
    (hq : LastShort normalize raw m n q) : p = q :=
  (hq.last p hp.read hp.short).eq_of_length_le (hp.last q hq.read hq.short).length_le

theorem ReadsPrefix.exists_take {p : Text} (h : ReadsPrefix normalize raw m n p) :
    ∃ i, Reads (Highlight.short normalize m n) (prefixes raw) i ∧ i ≤ raw.length ∧
      p = raw.take i := by
  obtain ⟨i, hi, hp⟩ := h
  rw [getElem?_prefixes] at hp
  split at hp
  · rename_i hle
    exact ⟨i, hi, hle, (Option.some.inj hp).symm⟩
  · cases hp

theorem firstLong_place (h : place normalize raw m n ≤ raw.length) :
    FirstLong normalize raw m n (raw.take (place normalize raw m n)) := by
  have hread := (partitionPoint_cuts (Highlight.short normalize m n) (prefixes raw)).after
    (by rw [length_prefixes]; exact Nat.lt_succ_of_le h)
  refine ⟨readsPrefix_take hread h,
    mt (short_iff_lt_place hread h).mp (Nat.lt_irrefl _), fun q hq hlong => ?_⟩
  obtain ⟨i, hi, hle, rfl⟩ := hq.exists_take
  rw [take_prefix_take h]
  exact Nat.le_of_not_lt (mt (short_iff_lt_place hi hle).mpr hlong)

theorem lastShort_place (hpos : 0 < place normalize raw m n)
    (h : place normalize raw m n - 1 ≤ raw.length) :
    LastShort normalize raw m n (raw.take (place normalize raw m n - 1)) := by
  have hread := (partitionPoint_cuts (Highlight.short normalize m n) (prefixes raw)).before hpos
  refine ⟨readsPrefix_take hread h, (short_iff_lt_place hread h).mpr (Nat.sub_lt hpos Nat.one_pos),
    fun q hq hshort => ?_⟩
  obtain ⟨i, hi, hle, rfl⟩ := hq.exists_take
  rw [take_prefix_take hle]
  exact Nat.le_sub_one_of_lt ((short_iff_lt_place hi hle).mp hshort)

end Traced

/-! ### Where longer prefixes are no shorter once normalized -/

/-- Longer prefixes of `raw` do not normalize to fewer bytes, and the empty one to none: what
the comment on the table takes for granted. -/
structure Grows (normalize : Text → Text) (raw : Text) : Prop where
  nil : normalize [] = []
  mono : ∀ a b, a <+: b → b <+: raw → byteLen (normalize a) ≤ byteLen (normalize b)

/-- The shortest raw prefix that normalizes to at least `n` bytes. -/
def IsShortest (normalize : Text → Text) (raw : Text) (n : ℕ) (p : Text) : Prop :=
  p <+: raw ∧ n ≤ byteLen (normalize p) ∧
    ∀ q, q <+: raw → n ≤ byteLen (normalize q) → p <+: q

/-- The longest raw prefix that normalizes to at most `n` bytes. -/
def IsLongest (normalize : Text → Text) (raw : Text) (n : ℕ) (p : Text) : Prop :=
  p <+: raw ∧ byteLen (normalize p) ≤ n ∧
    ∀ q, q <+: raw → byteLen (normalize q) ≤ n → q <+: p

section Growing

variable {normalize : Text → Text} {raw : Text} (hg : Grows normalize raw) {m n : ℕ}
  (hn : n ≤ m)

include hg hn

theorem short_of_grows {p : Text} (hp : p <+: raw) :
    short normalize m n p = true ↔ byteLen (normalize p) < n := by
  rw [short_iff]
  refine and_iff_left_of_imp fun hlt q hq => ?_
  have hle := hg.mono q p hq hp
  omega

/-- All prefixes are split at the place of the search. -/
theorem lt_place_of_grows {i : ℕ} (hi : i ≤ raw.length) :
    i < place normalize raw m n ↔ byteLen (normalize (raw.take i)) < n := by
  have hdown : (prefixes raw).Pairwise fun a b =>
      short normalize m n b = true → short normalize m n a = true := by
    refine (prefixes_pairwise raw).imp_of_mem fun {a b} ha hb hab => ?_
    rw [mem_prefixes] at ha hb
    rw [short_of_grows hg hn ha, short_of_grows hg hn hb]
    exact (hg.mono a b hab hb).trans_lt
  have hentry : (prefixes raw)[i]? = some (raw.take i) := by rw [getElem?_prefixes, if_pos hi]
  rw [place, lt_partitionPoint_iff hdown hentry, short_of_grows hg hn (List.take_prefix _ _)]

end Growing

section Found

variable {normalize : Text → Text} {raw : Text} (hg : Grows normalize raw) {m n : ℕ}

include hg

theorem isShortest_place (hn : n ≤ m) (h : place normalize raw m n ≤ raw.length) :
    IsShortest normalize raw n (raw.take (place normalize raw m n)) := by
  have hsplit : ∀ {i : ℕ}, i ≤ raw.length → (i < place normalize raw m n ↔
      byteLen (normalize (raw.take i)) < n) := lt_place_of_grows hg hn
  refine ⟨List.take_prefix _ _, ?_, fun q hq hlong => ?_⟩
  · have hself := mt (hsplit h).mpr (Nat.lt_irrefl _)
    omega
  · obtain ⟨i, hi, rfl⟩ : ∃ i, i ≤ raw.length ∧ q = raw.take i :=
      ⟨q.length, hq.length_le, List.prefix_iff_eq_take.mp hq⟩
    have hnot := mt (hsplit hi).mp (by omega)
    exact (take_prefix_take h).mpr (by omega)

theorem isLongest_place (hn : n < m) (hpos : 0 < place normalize raw m (n + 1))
    (h : place normalize raw m (n + 1) - 1 ≤ raw.length) :
    IsLongest normalize raw n (raw.take (place normalize raw m (n + 1) - 1)) := by
  have hsplit : ∀ {i : ℕ}, i ≤ raw.length → (i < place normalize raw m (n + 1) ↔
      byteLen (normalize (raw.take i)) < n + 1) := lt_place_of_grows hg hn
  refine ⟨List.take_prefix _ _, ?_, fun q hq hshort => ?_⟩
  · have hself := (hsplit h).mp (by omega)
    omega
  · obtain ⟨i, hi, rfl⟩ : ∃ i, i ≤ raw.length ∧ q = raw.take i :=
      ⟨q.length, hq.length_le, List.prefix_iff_eq_take.mp hq⟩
    have hlt := (hsplit hi).mpr (by omega)
    exact (take_prefix_take hi).mpr (by omega)

theorem firstLong_iff_isShortest (hn : n ≤ m) (h : place normalize raw m n ≤ raw.length)
    (p : Text) : FirstLong normalize raw m n p ↔ IsShortest normalize raw n p := by
  have hfirst := firstLong_place h
  obtain ⟨hraw, hlong, hmin⟩ := isShortest_place hg hn h
  constructor
  · intro hp
    rw [hp.unique hfirst]
    exact ⟨hraw, hlong, hmin⟩
  · rintro ⟨hp, hlen, hp_min⟩
    rw [(hp_min _ hraw hlong).eq_of_length_le (hmin p hp hlen).length_le]
    exact hfirst

theorem lastShort_iff_isLongest (hn : n < m) (hpos : 0 < place normalize raw m (n + 1))
    (h : place normalize raw m (n + 1) - 1 ≤ raw.length) (p : Text) :
    LastShort normalize raw m (n + 1) p ↔ IsLongest normalize raw n p := by
  have hlast := lastShort_place hpos h
  obtain ⟨hraw, hlen, hmax⟩ := isLongest_place hg hn hpos h
  constructor
  · intro hp
    rw [hp.unique hlast]
    exact ⟨hraw, hlen, hmax⟩
  · rintro ⟨hp, hplen, hp_max⟩
    rw [(hmax p hp hplen).eq_of_length_le (hp_max _ hraw hlen).length_le]
    exact hlast

end Found

end Unfydqry.Highlight
