import Mathlib.Algebra.Order.Ring.Nat
import Mathlib.Tactic.Common
import Mathlib.Tactic.Ring

/-! # Writing and reading bytes

A reader takes a value off the front of its input, or fails. Big-endian numbers and
lists of values read back what was written, whatever follows it. -/

namespace Codec

abbrev Bytes := List UInt8

abbrev Reader (α : Type) := StateT Bytes Option α

variable {α β : Type}

/-! ### Readers -/

theorem read_bind (r : Reader α) (f : α → Reader β) (bs : Bytes) :
    (r >>= f) bs = (r bs).bind fun p => f p.1 p.2 := rfl

theorem read_pure (a : α) (bs : Bytes) : (pure a : Reader α) bs = some (a, bs) := rfl

theorem bind_of_read {r : Reader α} {bs rest : Bytes} {a : α} (h : r bs = some (a, rest))
    (f : α → Reader β) : (r >>= f) bs = f a rest := by
  rw [read_bind, h]
  rfl

/-- What a sequence of readers has read. -/
theorem read_of_bind {r : Reader α} {f : α → Reader β} {bs rest : Bytes} {b : β}
    (h : (r >>= f) bs = some (b, rest)) :
    ∃ a mid, r bs = some (a, mid) ∧ f a mid = some (b, rest) := by
  rw [read_bind] at h
  obtain ⟨p, hp, hf⟩ := Option.bind_eq_some_iff.mp h
  exact ⟨p.1, p.2, hp, hf⟩

theorem eq_of_read_pure {a b : α} {bs rest : Bytes}
    (h : (pure a : Reader α) bs = some (b, rest)) : a = b ∧ bs = rest := by
  rw [read_pure] at h
  exact Prod.mk.inj (Option.some.inj h)

def bytes (n : ℕ) : Reader Bytes := fun bs =>
  if n ≤ bs.length then some (bs.take n, bs.drop n) else none

theorem bytes_append {n : ℕ} {bs : Bytes} (h : bs.length = n) (rest : Bytes) :
    bytes n (bs ++ rest) = some (bs, rest) := by
  have hle : n ≤ (bs ++ rest).length := by
    rw [List.length_append]
    omega
  rw [bytes, if_pos hle, List.take_left' h, List.drop_left' h]

/-! ### Numbers -/

/-- The low `k` bytes of a number, the highest first. -/
def be : ℕ → ℕ → Bytes
  | 0, _ => []
  | k + 1, n => UInt8.ofNat (n / 256 ^ k) :: be k n

def fromBe (bs : Bytes) : ℕ := bs.foldl (fun n b => 256 * n + b.toNat) 0

/-- A number of `k` bytes. -/
def nat (k : ℕ) : Reader ℕ := do
  let bs ← bytes k
  pure (fromBe bs)

theorem length_be (k n : ℕ) : (be k n).length = k := by
  induction k with
  | zero => rfl
  | succ k ih => rw [be, List.length_cons, ih]

theorem foldl_be (k n acc : ℕ) :
    (be k n).foldl (fun n b => 256 * n + b.toNat) acc = acc * 256 ^ k + n % 256 ^ k := by
  induction k generalizing acc with
  | zero => simp [be, Nat.mod_one]
  | succ k ih =>
    have hbyte : (UInt8.ofNat (n / 256 ^ k)).toNat = n / 256 ^ k % 256 := UInt8.toNat_ofNat'
    have hsplit : n % 256 ^ (k + 1) = n % 256 ^ k + 256 ^ k * (n / 256 ^ k % 256) := by
      rw [pow_succ, Nat.mod_mul]
    rw [be, List.foldl_cons, ih, hbyte, hsplit, pow_succ]
    ring

theorem fromBe_be (k n : ℕ) : fromBe (be k n) = n % 256 ^ k := by
  rw [fromBe, foldl_be, Nat.zero_mul, Nat.zero_add]

theorem nat_be {k n : ℕ} (h : n < 256 ^ k) (rest : Bytes) :
    nat k (be k n ++ rest) = some (n, rest) := by
  rw [nat, bind_of_read (bytes_append (length_be k n) rest), fromBe_be, Nat.mod_eq_of_lt h]
  rfl

/-! ### Lists -/

/-- Two parts, if both can be written. -/
def join (x y : Option Bytes) : Option Bytes := do
  let x ← x
  let y ← y
  pure (x ++ y)

theorem join_eq_some {x y : Option Bytes} {bs : Bytes} :
    join x y = some bs ↔ ∃ xs ys, x = some xs ∧ y = some ys ∧ xs ++ ys = bs := by
  constructor
  · intro h
    obtain ⟨xs, hx, h⟩ := Option.bind_eq_some_iff.mp h
    obtain ⟨ys, hy, h⟩ := Option.bind_eq_some_iff.mp h
    exact ⟨xs, ys, hx, hy, Option.some.inj h⟩
  · intro h
    obtain ⟨xs, ys, rfl, rfl, rfl⟩ := h
    rfl

/-- The values one after another. -/
def each (w : α → Option Bytes) : List α → Option Bytes
  | [] => some []
  | a :: as => join (w a) (each w as)

/-- A given number of values. -/
def many (r : Reader α) : ℕ → Reader (List α)
  | 0 => pure []
  | n + 1 => do
    let a ← r
    let as ← many r n
    pure (a :: as)

/-! ### Converters -/

/-- How values are written and read. -/
structure Converter (α : Type) where
  write : α → Option Bytes
  read : Reader α

namespace Converter

/-- A number of `k` bytes. -/
def number (k : ℕ) (f : α → ℕ) (f' : ℕ → α) : Converter α where
  write a := some (be k (f a))
  read := do
    let n ← nat k
    pure (f' n)

def both (A : Converter α) (B : Converter β) : Converter (α × β) where
  write p := join (A.write p.1) (B.write p.2)
  read := do
    let a ← A.read
    let b ← B.read
    pure (a, b)

/-- A value written as another one, where that is possible. -/
def through (enc : β → Option α) (dec : α → Option β) (A : Converter α) : Converter β where
  write b := (enc b).bind A.write
  read := do
    let a ← A.read
    dec a

/-- The same bytes for values in another shape. -/
def along (e : α ≃ β) (A : Converter α) : Converter β :=
  A.through (fun b => some (e.symm b)) (fun a => some (e a))

/-- Bytes after their length, a number of `k` bytes under a bound. -/
def block (k bound : ℕ) : Converter Bytes where
  write bs := if bs.length < bound then some (be k bs.length ++ bs) else none
  read := do
    let n ← nat k
    if n < bound then bytes n else failure

/-- A list after its length in the same form. -/
def counted (k bound : ℕ) (A : Converter α) : Converter (List α) where
  write as := if as.length < bound then join (some (be k as.length)) (each A.write as) else none
  read := do
    let n ← nat k
    if n < bound then many A.read n else failure

/-- What follows the tag of an optional value. -/
def afterTag (A : Converter α) : Option Bool → Reader (Option α)
  | some true => do
    let a ← A.read
    pure (some a)
  | some false => pure none
  | none => failure

/-- A value after a byte that tells if there is one. -/
def optional (present : ℕ → Option Bool) (A : Converter α) : Converter (Option α) where
  write
    | none => some (be 1 0)
    | some a => join (some (be 1 1)) (A.write a)
  read := do
    let n ← nat 1
    A.afterTag (present n)

end Converter

/-! ### Two sides of one format -/

variable {γ δ : Type}

/-- Two converters of one format, where `g` renames the values of the first for the second:
they write the same bytes, the first reads back what it wrote, and the second reads whatever
the first reads. -/
structure Agree (g : α → β) (S : Converter α) (K : Converter β) : Prop where
  writes : ∀ b bs, K.write b = some bs ↔ ∃ a, g a = b ∧ S.write a = some bs
  back : ∀ a bs rest, S.write a = some bs → S.read (bs ++ rest) = some (a, rest)
  accepts : ∀ bs a rest, S.read bs = some (a, rest) → K.read bs = some (g a, rest)

namespace Agree

variable {g : α → β} {S : Converter α} {K : Converter β}
variable {g' : γ → δ} {S' : Converter γ} {K' : Converter δ}

theorem write_renamed (h : Agree g S K) {a : α} {bs : Bytes} (hw : S.write a = some bs) :
    K.write (g a) = some bs := (h.writes (g a) bs).mpr ⟨a, rfl, hw⟩

/-- A converter that reads back what it wrote agrees with itself. -/
theorem refl (h : ∀ a bs rest, S.write a = some bs → S.read (bs ++ rest) = some (a, rest)) :
    Agree id S S where
  writes b bs := by
    constructor
    · intro hw
      exact ⟨b, rfl, hw⟩
    · intro hw
      obtain ⟨a, rfl, ha⟩ := hw
      exact ha
  back := h
  accepts bs a rest hr := hr

theorem number {k : ℕ} {f : α → ℕ} {f' : ℕ → α} (hlt : ∀ a, f a < 256 ^ k)
    (hback : ∀ a, f' (f a) = a) :
    Agree id (Converter.number k f f') (Converter.number k f f') := by
  apply refl
  intro a bs rest h
  cases h
  show (nat k >>= fun n => pure (f' n)) _ = _
  rw [bind_of_read (nat_be (hlt a) rest), hback]
  rfl

theorem block {k bound : ℕ} (hbound : bound ≤ 256 ^ k) :
    Agree id (Converter.block k bound) (Converter.block k bound) := by
  apply refl
  intro bs out rest hw
  obtain ⟨hlt, hw⟩ := Option.ite_none_right_eq_some.mp hw
  cases hw
  show (nat k >>= fun n => if n < bound then bytes n else failure) _ = _
  rw [List.append_assoc, bind_of_read (nat_be (by omega) _), if_pos hlt]
  exact bytes_append rfl rest

theorem both (h : Agree g S K) (h' : Agree g' S' K') :
    Agree (Prod.map g g') (S.both S') (K.both K') where
  writes p bs := by
    constructor
    · intro hw
      obtain ⟨x, y, hx, hy, rfl⟩ := join_eq_some.mp hw
      obtain ⟨a, ha, hx⟩ := (h.writes _ _).mp hx
      obtain ⟨c, hc, hy⟩ := (h'.writes _ _).mp hy
      exact ⟨(a, c), Prod.ext ha hc, join_eq_some.mpr ⟨x, y, hx, hy, rfl⟩⟩
    · intro hw
      obtain ⟨q, rfl, hw⟩ := hw
      obtain ⟨x, y, hx, hy, rfl⟩ := join_eq_some.mp hw
      exact join_eq_some.mpr ⟨x, y, h.write_renamed hx, h'.write_renamed hy, rfl⟩
  back p bs rest hw := by
    obtain ⟨x, y, hx, hy, rfl⟩ := join_eq_some.mp hw
    rw [List.append_assoc]
    show (S.read >>= _) _ = _
    rw [bind_of_read (h.back _ _ _ hx), bind_of_read (h'.back _ _ _ hy)]
    rfl
  accepts bs p rest hr := by
    obtain ⟨a, mid, ha, hr⟩ := read_of_bind hr
    obtain ⟨c, mid', hc, hr⟩ := read_of_bind hr
    obtain ⟨rfl, rfl⟩ := eq_of_read_pure hr
    show (K.read >>= _) _ = _
    rw [bind_of_read (h.accepts _ _ _ ha), bind_of_read (h'.accepts _ _ _ hc)]
    rfl

theorem through (h : Agree g S K) {enc : γ → Option α} {dec : α → Option γ}
    {enc' : δ → Option β} {dec' : β → Option δ}
    (henc : ∀ d a, enc' d = some (g a) ↔ ∃ c, g' c = d ∧ enc c = some a)
    (hback : ∀ c a, enc c = some a → dec a = some c)
    (hdec : ∀ a c, dec a = some c → dec' (g a) = some (g' c)) :
    Agree g' (S.through enc dec) (K.through enc' dec') where
  writes d bs := by
    constructor
    · intro hw
      obtain ⟨b, hb, hw⟩ := Option.bind_eq_some_iff.mp hw
      obtain ⟨a, rfl, ha⟩ := (h.writes _ _).mp hw
      obtain ⟨c, hc, henc⟩ := (henc d a).mp hb
      exact ⟨c, hc, Option.bind_eq_some_iff.mpr ⟨a, henc, ha⟩⟩
    · intro hw
      obtain ⟨c, hc, hw⟩ := hw
      obtain ⟨a, ha, hw⟩ := Option.bind_eq_some_iff.mp hw
      have hd : enc' d = some (g a) := (henc d a).mpr ⟨c, hc, ha⟩
      exact Option.bind_eq_some_iff.mpr ⟨g a, hd, h.write_renamed hw⟩
  back c bs rest hw := by
    obtain ⟨a, ha, hw⟩ := Option.bind_eq_some_iff.mp hw
    show (S.read >>= fun a => (dec a : Reader γ)) _ = _
    rw [bind_of_read (h.back _ _ _ hw), hback c a ha]
    rfl
  accepts bs c rest hr := by
    obtain ⟨a, mid, ha, hr⟩ := read_of_bind hr
    show (K.read >>= fun b => (dec' b : Reader δ)) _ = _
    rw [bind_of_read (h.accepts _ _ _ ha)]
    rcases hc : dec a with - | c'
    · rw [hc] at hr
      cases hr
    rw [hc] at hr
    obtain ⟨rfl, rfl⟩ := eq_of_read_pure hr
    rw [hdec a c' hc]
    rfl

theorem along (h : Agree g S K) {e : α ≃ γ} {e' : β ≃ δ} (hg : ∀ a, g' (e a) = e' (g a)) :
    Agree g' (S.along e) (K.along e') := by
  apply h.through
  · intro d a
    constructor
    · intro hd
      refine ⟨e a, ?_, congrArg some (e.symm_apply_apply a)⟩
      rw [hg, ← Option.some.inj hd, e'.apply_symm_apply]
    · intro hd
      obtain ⟨c, rfl, hc⟩ := hd
      rw [← Option.some.inj hc]
      have hs : g' c = e' (g (e.symm c)) := by
        rw [← hg, e.apply_symm_apply]
      rw [hs, e'.symm_apply_apply]
  · intro c a ha
    rw [← Option.some.inj ha, e.apply_symm_apply]
  · intro a c hc
    rw [← Option.some.inj hc, hg]

theorem each (h : Agree g S K) (bs : List β) (out : Bytes) :
    each K.write bs = some out ↔ ∃ as, as.map g = bs ∧ Codec.each S.write as = some out := by
  induction bs generalizing out with
  | nil =>
    constructor
    · intro hw
      exact ⟨[], rfl, hw⟩
    · intro hw
      obtain ⟨as, has, hw⟩ := hw
      rw [List.map_eq_nil_iff] at has
      rw [has] at hw
      exact hw
  | cons b bs ih =>
    constructor
    · intro hw
      obtain ⟨x, y, hx, hy, rfl⟩ := join_eq_some.mp hw
      obtain ⟨a, rfl, ha⟩ := (h.writes _ _).mp hx
      obtain ⟨as, rfl, has⟩ := (ih _).mp hy
      exact ⟨a :: as, rfl, join_eq_some.mpr ⟨x, y, ha, has, rfl⟩⟩
    · intro hw
      obtain ⟨as, has, hw⟩ := hw
      obtain ⟨a, as, rfl, rfl, rfl⟩ := List.map_eq_cons_iff.mp has
      obtain ⟨x, y, hx, hy, rfl⟩ := join_eq_some.mp hw
      exact join_eq_some.mpr ⟨x, y, h.write_renamed hx, (ih _).mpr ⟨as, rfl, hy⟩, rfl⟩

theorem many_back (h : Agree g S K) {as : List α} {bs : Bytes}
    (hw : Codec.each S.write as = some bs) (rest : Bytes) :
    many S.read as.length (bs ++ rest) = some (as, rest) := by
  induction as generalizing bs with
  | nil =>
    cases hw
    rfl
  | cons a as ih =>
    obtain ⟨x, y, hx, hy, rfl⟩ := join_eq_some.mp hw
    rw [List.length_cons, many, List.append_assoc, bind_of_read (h.back a x _ hx),
      bind_of_read (ih hy)]
    rfl

theorem many_accepts (h : Agree g S K) (n : ℕ) {bs rest : Bytes} {as : List α}
    (hr : many S.read n bs = some (as, rest)) :
    many K.read n bs = some (as.map g, rest) := by
  induction n generalizing bs as with
  | zero =>
    obtain ⟨rfl, rfl⟩ := eq_of_read_pure hr
    rfl
  | succ n ih =>
    obtain ⟨a, mid, ha, hr⟩ := read_of_bind hr
    obtain ⟨as', mid', has, hr⟩ := read_of_bind hr
    obtain ⟨rfl, rfl⟩ := eq_of_read_pure hr
    rw [many, bind_of_read (h.accepts bs a mid ha), bind_of_read (ih has)]
    rfl

theorem counted (h : Agree g S K) {k bound : ℕ} (hbound : bound ≤ 256 ^ k) :
    Agree (List.map g) (S.counted k bound) (K.counted k bound) where
  writes bs out := by
    constructor
    · intro hw
      obtain ⟨hlt, hw⟩ := Option.ite_none_right_eq_some.mp hw
      obtain ⟨x, y, hx, hy, rfl⟩ := join_eq_some.mp hw
      obtain ⟨as, rfl, has⟩ := (h.each _ _).mp hy
      rw [List.length_map] at hlt hx
      refine ⟨as, rfl, ?_⟩
      exact Option.ite_none_right_eq_some.mpr ⟨hlt, join_eq_some.mpr ⟨x, y, hx, has, rfl⟩⟩
    · intro hw
      obtain ⟨as, rfl, hw⟩ := hw
      obtain ⟨hlt, hw⟩ := Option.ite_none_right_eq_some.mp hw
      obtain ⟨x, y, hx, hy, rfl⟩ := join_eq_some.mp hw
      rw [← List.length_map g] at hlt hx
      refine Option.ite_none_right_eq_some.mpr ⟨hlt, join_eq_some.mpr ⟨x, y, hx, ?_, rfl⟩⟩
      exact (h.each _ _).mpr ⟨as, rfl, hy⟩
  back as out rest hw := by
    obtain ⟨hlt, hw⟩ := Option.ite_none_right_eq_some.mp hw
    obtain ⟨x, y, hx, hy, rfl⟩ := join_eq_some.mp hw
    cases hx
    show (nat k >>= fun n => if n < bound then many S.read n else failure) _ = _
    rw [List.append_assoc, bind_of_read (nat_be (by omega) _), if_pos hlt]
    exact h.many_back hy rest
  accepts bs as rest hr := by
    obtain ⟨n, mid, hn, hr⟩ := read_of_bind hr
    show (nat k >>= fun n => if n < bound then many K.read n else failure) _ = _
    rw [bind_of_read hn]
    by_cases hlt : n < bound
    · rw [if_pos hlt] at hr ⊢
      exact h.many_accepts n hr
    · rw [if_neg hlt] at hr
      cases hr

theorem optional (h : Agree g S K) {present present' : ℕ → Option Bool}
    (hnone : present 0 = some false) (hsome : present 1 = some true)
    (hle : ∀ n p, present n = some p → present' n = some p) :
    Agree (Option.map g) (S.optional present) (K.optional present') where
  writes o out := by
    constructor
    · intro hw
      cases o with
      | none => exact ⟨none, rfl, hw⟩
      | some b =>
        obtain ⟨x, y, hx, hy, rfl⟩ := join_eq_some.mp hw
        obtain ⟨a, rfl, ha⟩ := (h.writes _ _).mp hy
        exact ⟨some a, rfl, join_eq_some.mpr ⟨x, y, hx, ha, rfl⟩⟩
    · intro hw
      obtain ⟨o, rfl, hw⟩ := hw
      cases o with
      | none => exact hw
      | some a =>
        obtain ⟨x, y, hx, hy, rfl⟩ := join_eq_some.mp hw
        exact join_eq_some.mpr ⟨x, y, hx, h.write_renamed hy, rfl⟩
  back o out rest hw := by
    show (nat 1 >>= fun n => S.afterTag (present n)) _ = _
    cases o with
    | none =>
      cases hw
      rw [bind_of_read (nat_be (by norm_num) rest), hnone]
      rfl
    | some a =>
      obtain ⟨x, y, hx, hy, rfl⟩ := join_eq_some.mp hw
      cases hx
      rw [List.append_assoc, bind_of_read (nat_be (by norm_num) _), hsome]
      show (S.read >>= _) _ = _
      rw [bind_of_read (h.back a y rest hy)]
      rfl
  accepts bs o rest hr := by
    obtain ⟨n, mid, hn, hr⟩ := read_of_bind hr
    show (nat 1 >>= fun n => K.afterTag (present' n)) _ = _
    rw [bind_of_read hn]
    rcases hp : present n with - | p
    · rw [hp] at hr
      cases hr
    rw [hp] at hr
    rw [hle n p hp]
    cases p with
    | false =>
      obtain ⟨rfl, rfl⟩ := eq_of_read_pure hr
      rfl
    | true =>
      obtain ⟨a, mid', ha, hr⟩ := read_of_bind hr
      obtain ⟨rfl, rfl⟩ := eq_of_read_pure hr
      show (K.read >>= _) _ = _
      rw [bind_of_read (h.accepts _ _ _ ha)]
      rfl

end Agree

end Codec
