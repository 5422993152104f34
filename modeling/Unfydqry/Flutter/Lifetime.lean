import Mathlib.Data.List.Perm.Basic
import Unfydqry.Flutter.Decoding

/-! # The engines a Dart program holds

At any moment an open engine belongs to exactly one of: an object not disposed, an `open`
whose response is on its way, a `dispose` that waits to be served. A call that waits belongs
to an engine that is still held, since a `dispose` is sent after the calls of its object and
messages keep their order. -/

namespace Unfydqry.Flutter

open LockedStore

/-! ### Who holds a handle -/

def Sent.handle : Sent → Option Int64
  | .call h _ | .dispose h => some h
  | .open _ _ | .ask _ => none

def Sent.opens : Sent → Bool
  | .open _ _ => true
  | _ => false

def Sent.closes : Sent → Option Int64
  | .dispose h => some h
  | _ => none

def Event.opens : Event → Bool
  | .open _ _ => true
  | _ => false

/-- What the plugin answers to a message with all its arguments and an engine. -/
def Response.proper : Response → Bool
  | .notImplemented | .error (.badArgs _) | .error (.noEngine _) => false
  | _ => true

/-- The response makes no object. -/
def Response.plain : Response → Bool
  | .success (.handle _) => false
  | _ => true

namespace Channel

def alive (s : Channel) : List Int64 := s.objects.filter fun h => !disposed h

def undelivered (s : Channel) : List Int64 := s.responses.filterMap delivers

def closing (s : Channel) : List Int64 := s.requests.filterMap Sent.closes

def held (s : Channel) : List Int64 := s.alive ++ (s.undelivered ++ s.closing)

end Channel

/-! ### What a message does to the engines -/

namespace Plugin

variable (p : Platform) (env : Env)

/-- The same engines are open. -/
structure Keeps (st st' : Plugin) : Prop where
  engines : ∀ h, st'.engines.contains h = st.engines.contains h
  nextHandle : st'.nextHandle = st.nextHandle

theorem Keeps.refl (st : Plugin) : st.Keeps st := ⟨fun _ => rfl, rfl⟩

theorem call_keeps (st : Plugin) {h : Int64} {e : Engine} (he : st.engines[h]? = some e)
    (c : Call) : st.Keeps (st.call env h e c).1 := by
  refine ⟨fun k => ?_, rfl⟩
  have hmem : st.engines.contains h = true := (Table.contains_iff _ _).mpr ⟨e, he⟩
  show (st.engines.insert h _).contains k = _
  rw [Bool.eq_iff_iff, Table.contains_iff, Table.contains_iff, Table.lookup_insert]
  by_cases hk : k = h
  · rw [if_pos hk, hk, he]
    exact ⟨fun _ => ⟨_, rfl⟩, fun _ => ⟨_, rfl⟩⟩
  · rw [if_neg hk]

theorem answer_proper {α : Type} {value : α → Payload}
    (hv : ∀ a, (Response.success (value a)).plain = true) (r : Outcome SearchError α) :
    (answer value r).proper = true ∧ (answer value r).plain = true := by
  cases r with
  | ok a => exact ⟨rfl, hv a⟩
  | err e => exact ⟨rfl, rfl⟩
  | panic => exact ⟨rfl, rfl⟩

theorem payload_plain (r : Reply) : (Response.success (payload r)).plain = true := by
  cases r <;> rfl

theorem asInt_error {i : Int64} {f : Fault} (h : asInt p i = .error f) : f = .plugin := by
  cases p with
  | android =>
    by_cases hi : fits32 i
    · rw [show asInt .android i = .ok i from if_pos hi] at h
      cases h
    · rw [show asInt .android i = .error .plugin from if_neg hi] at h
      cases h
      rfl
  | ios => cases h

theorem toUInt_error {i : Int64} {f : Fault} (h : toUInt p i = .error f) : f = .crash := by
  cases p with
  | android => cases h
  | ios =>
    by_cases hi : 0 ≤ i.toInt ∧ i.toInt < 2 ^ 32
    · rw [show toUInt .ios i = .ok i.toUInt64.toUInt32 from if_pos hi] at h
      cases h
    · rw [show toUInt .ios i = .error .crash from if_neg hi] at h
      cases h
      rfl

theorem bind_error {α β : Type} {x : Read α} {g : α → Read β} {f : Fault}
    (h : x >>= g = .error f) : x = .error f ∨ ∃ a, x = .ok a ∧ g a = .error f := by
  cases x with
  | error f' =>
    cases h
    exact .inl rfl
  | ok a => exact .inr ⟨a, rfl, h⟩

theorem core_error {c : ApiCall} {f : Fault} (h : c.core p = .error f) :
    f = .plugin ∨ f = .crash := by
  cases c with
  | search query limit =>
    obtain h | ⟨l, -, h⟩ := bind_error h
    · exact .inl (asInt_error p h)
    obtain h | ⟨u, -, h⟩ := bind_error h
    · exact .inr (toUInt_error p h)
    · cases h
  | searchRecords query limit fieldsPerRecord =>
    obtain h | ⟨l, -, h⟩ := bind_error h
    · exact .inl (asInt_error p h)
    obtain h | ⟨n, -, h⟩ := bind_error h
    · exact .inl (asInt_error p h)
    obtain h | ⟨u, -, h⟩ := bind_error h
    · exact .inr (toUInt_error p h)
    obtain h | ⟨v, -, h⟩ := bind_error h
    · exact .inr (toUInt_error p h)
    · cases h
  | changeFieldBits n =>
    obtain h | ⟨l, -, h⟩ := bind_error h
    · exact .inl (asInt_error p h)
    · cases h
  | _ => cases h

theorem increment_toInt {i : Int64} (h0 : 0 ≤ i.toInt) (hp : i.toInt + 1 < p.handles) :
    (increment p i).toInt = i.toInt + 1 := by
  have hone : (1 : Int64).toInt = 1 := rfl
  have hadd : (i + 1).toInt = i.toInt + 1 := by
    rw [Int64.toInt_add, hone]
    have hp' : i.toInt + 1 < 2 ^ 63 := by
      cases p <;> simp only [Platform.handles] at hp <;> omega
    exact Int.bmod_eq_of_le_mul_two (by omega) (by omega)
  cases p with
  | ios => exact hadd
  | android =>
    show (i + 1).toInt32.toInt64.toInt = _
    simp only [Platform.handles] at hp
    rw [Int32.toInt_toInt64, Int64.toInt_toInt32, hadd]
    exact Int.bmod_eq_of_le_mul_two (by omega) (by omega)

/-- A constructor takes the next handle for its engine, or opens nothing. -/
theorem opened_cases (st : Plugin) (path : Text) (w : EngineWorld)
    (r : Outcome SearchError SearchEngine) :
    (∃ e, (st.opened p path w r).2 = .success (.handle st.nextHandle) ∧
      (st.opened p path w r).1.nextHandle = increment p st.nextHandle ∧
      (st.opened p path w r).1.engines = st.engines.insert st.nextHandle e) ∨
    ((st.opened p path w r).1.engines = st.engines ∧
      ((st.opened p path w r).1.nextHandle = st.nextHandle ∨
        (st.opened p path w r).1.nextHandle = increment p st.nextHandle) ∧
      (st.opened p path w r).2.proper = true ∧ (st.opened p path w r).2.plain = true) := by
  have hfailed : (st.unopened p path w.db).engines = st.engines ∧
      ((st.unopened p path w.db).nextHandle = st.nextHandle ∨
        (st.unopened p path w.db).nextHandle = increment p st.nextHandle) := by
    cases p with
    | android => exact ⟨rfl, .inr rfl⟩
    | ios => exact ⟨rfl, .inl rfl⟩
  cases r with
  | ok e => exact .inl ⟨_, rfl, rfl, rfl⟩
  | err e => exact .inr ⟨hfailed.1, hfailed.2, rfl, rfl⟩
  | panic => exact .inr ⟨hfailed.1, hfailed.2, rfl, rfl⟩

/-- A message that opens and closes nothing. -/
theorem served_keeps (st : Plugin) {m : Sent} (ho : m.opens = false) (hc : m.closes = none)
    (hm : ∀ h, m.handle = some h → 0 ≤ h.toInt ∧ h.toInt < p.handles ∧
      st.engines.contains h = true) :
    st.Keeps (st.onMethodCall p env m.message).1 ∧
      (st.onMethodCall p env m.message).2.proper = true ∧
      (st.onMethodCall p env m.message).2.plain = true := by
  cases m with
  | «open» path o => cases ho
  | dispose h => cases hc
  | ask q =>
    cases q with
    | normalize input o =>
      rw [onMethodCall_normalize]
      exact ⟨Keeps.refl st, rfl, rfl⟩
    | reindexStatus path o =>
      rw [onMethodCall_reindexStatus]
      exact ⟨⟨fun _ => rfl, rfl⟩, answer_proper (fun _ => rfl) _⟩
  | call h c =>
    obtain ⟨h0, hp, hmem⟩ := hm h rfl
    obtain ⟨e, he⟩ := (Table.contains_iff _ _).mp hmem
    rw [onMethodCall_call env h0 hp he]
    cases hcore : c.core p with
    | ok core => exact ⟨call_keeps env st he core, answer_proper payload_plain _⟩
    | error f =>
      refine ⟨Keeps.refl st, ?_⟩
      obtain rfl | rfl := core_error p hcore
      · exact ⟨rfl, rfl⟩
      · exact ⟨rfl, rfl⟩

end Plugin

/-! ### The invariant -/

/-- What holds of the channel after at most `n` calls of a constructor. -/
structure Sound (n : ℕ) (s : Channel) : Prop where
  next_nonneg : 0 ≤ s.plugin.nextHandle.toInt
  /-- Every constructor takes one handle at most. -/
  next_le : s.plugin.nextHandle.toInt + s.requests.countP Sent.opens ≤ n
  below : ∀ h, s.plugin.engines.contains h = true →
    0 ≤ h.toInt ∧ h.toInt < s.plugin.nextHandle.toInt
  nodup : s.held.Nodup
  held : ∀ h, s.plugin.engines.contains h = true ↔ h ∈ s.held
  live : ∀ m ∈ s.requests, ∀ h, m.handle = some h → h ∈ s.held
  /-- A `dispose` is behind the calls of its handle. -/
  last : s.requests.Pairwise fun a b => ∀ h, a.closes = some h → b.handle ≠ some h
  proper : ∀ q ∈ s.log, q.2.proper = true

namespace Sound

variable {p : Platform} {env : Env} {n : ℕ} {s : Channel}

theorem mem_engine (hs : Sound n s) (hn : n < p.handles) {h : Int64} (hh : h ∈ s.held) :
    0 ≤ h.toInt ∧ h.toInt < p.handles ∧ s.plugin.engines.contains h = true := by
  have hmem := (hs.held h).mpr hh
  have hb := hs.below h hmem
  have hle := hs.next_le
  exact ⟨hb.1, by omega, hmem⟩

theorem delivers_plain {m : Sent} {r : Response} (hr : r.plain = true) :
    delivers (m, r) = none := by
  cases m with
  | «open» path o =>
    cases r with
    | success v =>
      cases v with
      | handle h => cases hr
      | _ => rfl
    | _ => rfl
  | _ => rfl

/-- A new message, sent by an object that is not disposed or by none. -/
theorem send (hs : Sound n s) {m : Sent} (hc : m.closes = none)
    (hm : ∀ h, m.handle = some h → h ∈ s.alive) :
    Sound (n + if m.opens then 1 else 0) (s.send m) := by
  have hclosing : (s.send m).closing = s.closing := by
    show (s.requests ++ [m]).filterMap Sent.closes = _
    rw [List.filterMap_append, List.filterMap_cons_none hc]
    exact List.append_nil _
  have hheld : (s.send m).held = s.held := by
    show s.alive ++ (s.undelivered ++ (s.send m).closing) = _
    rw [hclosing]
    rfl
  refine ⟨hs.next_nonneg, ?_, hs.below, ?_, ?_, ?_, ?_, hs.proper⟩
  · have hle := hs.next_le
    show s.plugin.nextHandle.toInt + ((s.requests ++ [m]).countP Sent.opens : ℕ) ≤ _
    rw [List.countP_append, List.countP_singleton]
    generalize (if m.opens = true then 1 else 0) = k
    omega
  · rw [hheld]
    exact hs.nodup
  · intro h
    rw [hheld]
    exact hs.held h
  · intro b hb h hbh
    rw [hheld]
    obtain hb | hb := List.mem_append.mp hb
    · exact hs.live b hb h hbh
    · rw [List.mem_singleton.mp hb] at hbh
      exact List.mem_append_left _ (hm h hbh)
  · refine List.pairwise_append.mpr ⟨hs.last, List.pairwise_singleton _ _, ?_⟩
    intro a ha b hb h hah hbh
    rw [List.mem_singleton.mp hb] at hbh
    -- an alive handle is not one that waits to be disposed
    have hclose : h ∈ s.closing := List.mem_filterMap.mpr ⟨a, ha, hah⟩
    exact (List.nodup_append.mp hs.nodup).2.2 h (hm h hbh) h
      (List.mem_append_right _ hclose) rfl

theorem filter_set {α : Type} {q : α → Bool} {a b : α} {xs : List α} {i : ℕ}
    (hi : xs[i]? = some a) (ha : q a = true) (hb : q b = false) :
    (xs.filter q).Perm (a :: (xs.set i b).filter q) := by
  induction xs generalizing i with
  | nil => cases hi
  | cons x xs ih =>
    cases i with
    | zero =>
      have hx : x = a := Option.some.inj hi
      rw [hx, List.set_cons_zero, List.filter_cons_of_pos ha,
        List.filter_cons_of_neg (by rw [hb]; decide)]
    | succ i =>
      have hp := ih (i := i) hi
      rw [List.set_cons_succ]
      by_cases hx : q x = true
      · rw [List.filter_cons_of_pos hx, List.filter_cons_of_pos hx]
        exact (hp.cons x).trans (List.Perm.swap a x _)
      · rw [List.filter_cons_of_neg hx, List.filter_cons_of_neg hx]
        exact hp

/-- An object is disposed. -/
theorem dispose (hs : Sound n s) {i : ℕ} {h : Int64} (hi : s.objects[i]? = some h)
    (hd : disposed h = false) :
    Sound n ({ s with objects := s.objects.set i (-1) }.send (.dispose h)) := by
  have hset : s.alive.Perm (h :: (s.objects.set i (-1)).filter fun h => !disposed h) :=
    filter_set (q := fun h => !disposed h) hi (by rw [hd]; rfl) (by decide)
  have hmem : h ∈ s.alive := hset.mem_iff.mpr (List.mem_cons_self ..)
  have hheld : s.held.Perm
      ({ s with objects := s.objects.set i (-1) }.send (.dispose h)).held := by
    have hclosing : (s.requests ++ [Sent.dispose h]).filterMap Sent.closes = s.closing ++ [h] :=
      List.filterMap_append
    show (s.alive ++ (s.undelivered ++ s.closing)).Perm
      (((s.objects.set i (-1)).filter fun h => !disposed h) ++
        (s.undelivered ++ (s.requests ++ [Sent.dispose h]).filterMap Sent.closes))
    rw [hclosing]
    refine List.perm_iff_count.mpr fun a => ?_
    have hcount := List.perm_iff_count.mp hset a
    simp only [List.count_append, List.count_cons, List.count_nil] at hcount ⊢
    omega
  refine ⟨hs.next_nonneg, ?_, hs.below, hheld.nodup_iff.mp hs.nodup, ?_, ?_, ?_, hs.proper⟩
  · have hle := hs.next_le
    show s.plugin.nextHandle.toInt + ((s.requests ++ [Sent.dispose h]).countP Sent.opens : ℕ) ≤ _
    rw [List.countP_append]
    exact hle
  · intro k
    exact (hs.held k).trans hheld.mem_iff
  · intro b hb k hbk
    obtain hb | hb := List.mem_append.mp hb
    · exact hheld.mem_iff.mp (hs.live b hb k hbk)
    · rw [List.mem_singleton.mp hb] at hbk
      have hk : h = k := Option.some.inj hbk
      rw [← hk]
      exact hheld.mem_iff.mp (List.mem_append_left _ hmem)
  · refine List.pairwise_append.mpr ⟨hs.last, List.pairwise_singleton _ _, ?_⟩
    intro a ha b hb k hak hbk
    rw [List.mem_singleton.mp hb] at hbk
    have hk : h = k := Option.some.inj hbk
    have hclose : k ∈ s.closing := List.mem_filterMap.mpr ⟨a, ha, hak⟩
    exact (List.nodup_append.mp hs.nodup).2.2 h hmem k (List.mem_append_right _ hclose) hk

/-! ### Serving a message -/

theorem opens_open (path : Text) (o : ApiOpen) : (Sent.open path o).opens = true := rfl

section Serving

variable {m : Sent} {rest : List Sent} {r : Plugin × Response}

theorem undelivered_answered :
    (s.answered m rest r).undelivered = s.undelivered ++ (delivers (m, r.2)).toList := by
  show (s.responses ++ [(m, r.2)]).filterMap delivers = _
  rw [List.filterMap_append]
  cases hd : delivers (m, r.2) with
  | none => rw [List.filterMap_cons_none hd]; rfl
  | some h => rw [List.filterMap_cons_some hd]; rfl

theorem closing_served (hq : s.requests = m :: rest) :
    s.closing = m.closes.toList ++ (s.answered m rest r).closing := by
  show s.requests.filterMap Sent.closes = _ ++ rest.filterMap Sent.closes
  rw [hq]
  cases hc : m.closes with
  | none => rw [List.filterMap_cons_none hc]; rfl
  | some h => rw [List.filterMap_cons_some hc]; rfl

/-- The handles held before and after a message is served. -/
theorem held_answered (hq : s.requests = m :: rest) :
    ((delivers (m, r.2)).toList ++ s.held).Perm
      (m.closes.toList ++ (s.answered m rest r).held) := by
  show (_ ++ (s.alive ++ (s.undelivered ++ s.closing))).Perm
    (_ ++ (s.alive ++ ((s.answered m rest r).undelivered ++ (s.answered m rest r).closing)))
  rw [closing_served (r := r) hq, undelivered_answered]
  generalize (delivers (m, r.2)).toList = d
  generalize m.closes.toList = c
  generalize (s.answered m rest r).closing = rest
  refine List.perm_iff_count.mpr fun a => ?_
  simp only [List.count_append]
  omega

theorem proper_answered (hs : Sound n s) (hproper : r.2.proper = true) :
    ∀ q ∈ (s.answered m rest r).log, q.2.proper = true := by
  intro q hq
  obtain hq | hq := List.mem_append.mp hq
  · exact hs.proper q hq
  · rw [List.mem_singleton.mp hq]
    exact hproper

/-- A message that leaves the engines as they are. -/
theorem answer_kept (hs : Sound n s) (hq : s.requests = m :: rest) (hc : m.closes = none)
    (hk : s.plugin.Keeps r.1) (hproper : r.2.proper = true) (hplain : r.2.plain = true) :
    Sound n (s.answered m rest r) := by
  have hheld : s.held.Perm (s.answered m rest r).held := by
    have h := held_answered (r := r) hq
    rw [delivers_plain hplain, hc] at h
    exact h
  have hlast := hs.last
  rw [hq] at hlast
  refine ⟨?_, ?_, ?_, hheld.nodup_iff.mp hs.nodup, ?_, ?_, (List.pairwise_cons.mp hlast).2, ?_⟩
  · show 0 ≤ r.1.nextHandle.toInt
    rw [hk.nextHandle]
    exact hs.next_nonneg
  · have hle := hs.next_le
    rw [hq, List.countP_cons] at hle
    show r.1.nextHandle.toInt + (rest.countP Sent.opens : ℕ) ≤ _
    rw [hk.nextHandle]
    omega
  · intro h hh
    show _ ∧ h.toInt < r.1.nextHandle.toInt
    rw [hk.nextHandle]
    exact hs.below h (by rw [← hk.engines]; exact hh)
  · intro h
    show r.1.engines.contains h = true ↔ _
    rw [hk.engines, hs.held]
    exact hheld.mem_iff
  · intro b hb h hbh
    exact hheld.mem_iff.mp (hs.live b (by rw [hq]; exact List.mem_cons_of_mem _ hb) h hbh)
  · exact proper_answered hs hproper

/-- An `open` that made an engine. -/
theorem answer_opened (hs : Sound n s) (hn : n < p.handles) {path : Text} {o : ApiOpen}
    (hq : s.requests = .open path o :: rest) {e : Engine}
    (hr : r.2 = .success (.handle s.plugin.nextHandle))
    (hnext : r.1.nextHandle = Plugin.increment p s.plugin.nextHandle)
    (hengines : r.1.engines = s.plugin.engines.insert s.plugin.nextHandle e) :
    Sound n (s.answered (.open path o) rest r) := by
  have hle := hs.next_le
  have hpos := hs.next_nonneg
  rw [hq, List.countP_cons, if_pos (opens_open path o)] at hle
  have hnew : r.1.nextHandle.toInt = s.plugin.nextHandle.toInt + 1 := by
    rw [hnext]
    exact Plugin.increment_toInt p hpos (by omega)
  have hheld : (s.plugin.nextHandle :: s.held).Perm (s.answered (.open path o) rest r).held := by
    have h := held_answered (r := r) hq
    rw [hr] at h
    exact h
  have hfresh : s.plugin.nextHandle ∉ s.held := by
    intro hmem
    have hb := hs.below _ ((hs.held _).mpr hmem)
    omega
  have hcontains : ∀ h, r.1.engines.contains h = true ↔
      h = s.plugin.nextHandle ∨ s.plugin.engines.contains h = true := by
    intro h
    rw [hengines, Table.contains_iff, Table.contains_iff, Table.lookup_insert]
    by_cases hh : h = s.plugin.nextHandle
    · rw [if_pos hh]
      exact ⟨fun _ => .inl hh, fun _ => ⟨_, rfl⟩⟩
    · rw [if_neg hh]
      exact ⟨.inr, fun hor => hor.resolve_left hh⟩
  have hlast := hs.last
  rw [hq] at hlast
  refine ⟨?_, ?_, ?_, hheld.nodup_iff.mp (List.nodup_cons.mpr ⟨hfresh, hs.nodup⟩), ?_, ?_,
    (List.pairwise_cons.mp hlast).2, proper_answered hs (by rw [hr]; rfl)⟩
  · show 0 ≤ r.1.nextHandle.toInt
    omega
  · show r.1.nextHandle.toInt + (rest.countP Sent.opens : ℕ) ≤ _
    omega
  · intro h hh
    show 0 ≤ h.toInt ∧ h.toInt < r.1.nextHandle.toInt
    obtain rfl | hold := (hcontains h).mp hh
    · omega
    · have hb := hs.below h hold
      omega
  · intro h
    refine (hcontains h).trans ?_
    rw [hs.held, ← List.mem_cons]
    exact hheld.mem_iff
  · intro b hb h hbh
    have hmem := hs.live b (by rw [hq]; exact List.mem_cons_of_mem _ hb) h hbh
    exact hheld.mem_iff.mp (List.mem_cons_of_mem _ hmem)

/-- A constructor that failed may still have taken a handle. -/
theorem answer_unopened (hs : Sound n s) (hn : n < p.handles) {path : Text} {o : ApiOpen}
    (hq : s.requests = .open path o :: rest) (hengines : r.1.engines = s.plugin.engines)
    (hnext : r.1.nextHandle = s.plugin.nextHandle ∨
      r.1.nextHandle = Plugin.increment p s.plugin.nextHandle)
    (hproper : r.2.proper = true) (hplain : r.2.plain = true) :
    Sound n (s.answered (.open path o) rest r) := by
  have hle := hs.next_le
  have hpos := hs.next_nonneg
  rw [hq, List.countP_cons, if_pos (opens_open path o)] at hle
  have hnew : s.plugin.nextHandle.toInt ≤ r.1.nextHandle.toInt ∧
      r.1.nextHandle.toInt ≤ s.plugin.nextHandle.toInt + 1 := by
    obtain h | h := hnext
    · rw [h]
      omega
    · rw [h, Plugin.increment_toInt p hpos (by omega)]
      omega
  have hheld : s.held.Perm (s.answered (.open path o) rest r).held := by
    have h := held_answered (r := r) hq
    rw [delivers_plain hplain] at h
    exact h
  have hlast := hs.last
  rw [hq] at hlast
  refine ⟨?_, ?_, ?_, hheld.nodup_iff.mp hs.nodup, ?_, ?_, (List.pairwise_cons.mp hlast).2,
    proper_answered hs hproper⟩
  · show 0 ≤ r.1.nextHandle.toInt
    omega
  · show r.1.nextHandle.toInt + (rest.countP Sent.opens : ℕ) ≤ _
    omega
  · intro h hh
    have hb := hs.below h (by rw [← hengines]; exact hh)
    show 0 ≤ h.toInt ∧ h.toInt < r.1.nextHandle.toInt
    omega
  · intro h
    show r.1.engines.contains h = true ↔ _
    rw [hengines, hs.held]
    exact hheld.mem_iff
  · intro b hb h hbh
    exact hheld.mem_iff.mp (hs.live b (by rw [hq]; exact List.mem_cons_of_mem _ hb) h hbh)

/-- The engine of a `dispose` is the one its object held; the messages behind it belong to
others. -/
theorem answer_closed (hs : Sound n s) {h : Int64} (hq : s.requests = .dispose h :: rest)
    (hr : r = ({ s.plugin with engines := s.plugin.engines.erase h }, .success .null)) :
    Sound n (s.answered (.dispose h) rest r) := by
  subst hr
  have hle := hs.next_le
  rw [hq, List.countP_cons] at hle
  have hheld : s.held.Perm (h :: (s.answered (.dispose h) rest
      ({ s.plugin with engines := s.plugin.engines.erase h }, .success .null)).held) :=
    held_answered hq
  have hnodup := List.nodup_cons.mp (hheld.nodup_iff.mp hs.nodup)
  have hmem : ∀ k, k ≠ h → k ∈ s.held → k ∈ (s.answered (.dispose h) rest
      ({ s.plugin with engines := s.plugin.engines.erase h }, .success .null)).held := by
    intro k hk hin
    exact (List.mem_cons.mp (hheld.mem_iff.mp hin)).resolve_left hk
  have hcontains : ∀ k, (s.plugin.engines.erase h).contains k = true ↔
      k ≠ h ∧ s.plugin.engines.contains k = true := by
    intro k
    rw [Table.contains_iff, Table.contains_iff, Table.lookup_erase]
    by_cases hk : k = h
    · rw [if_pos hk]
      constructor
      · intro hv
        obtain ⟨v, hv⟩ := hv
        cases hv
      · intro hkh
        exact absurd hk hkh.1
    · rw [if_neg hk]
      exact ⟨fun hv => ⟨hk, hv⟩, fun hkh => hkh.2⟩
  have hlast := hs.last
  rw [hq] at hlast
  have hcons := List.pairwise_cons.mp hlast
  have hle' : s.plugin.nextHandle.toInt + (rest.countP Sent.opens : ℕ) ≤ n := by omega
  refine ⟨hs.next_nonneg, hle', ?_, hnodup.2, ?_, ?_, hcons.2, proper_answered hs rfl⟩
  · intro k hk
    exact hs.below k ((hcontains k).mp hk).2
  · intro k
    refine (hcontains k).trans ?_
    rw [hs.held]
    constructor
    · intro hk
      exact hmem k hk.1 hk.2
    · intro hk
      refine ⟨fun hkh => hnodup.1 (hkh ▸ hk), hheld.mem_iff.mpr (List.mem_cons_of_mem _ hk)⟩
  · intro b hb k hbk
    refine hmem k ?_ (hs.live b (by rw [hq]; exact List.mem_cons_of_mem _ hb) k hbk)
    intro hkh
    exact hcons.1 b hb h rfl (hkh ▸ hbk)

/-- The plugin serves the next message. -/
theorem serve (hs : Sound n s) (hn : n < p.handles) (hq : s.requests = m :: rest) :
    Sound n (s.answered m rest (s.plugin.onMethodCall p env m.message)) := by
  have hhandle : ∀ h, m.handle = some h →
      0 ≤ h.toInt ∧ h.toInt < p.handles ∧ s.plugin.engines.contains h = true := by
    intro h hh
    exact hs.mem_engine hn (hs.live m (by rw [hq]; exact List.mem_cons_self ..) h hh)
  cases m with
  | «open» path o =>
    rw [Plugin.onMethodCall_open]
    obtain ⟨e, hr, hnext, hengines⟩ | ⟨hengines, hnext, hproper, hplain⟩ :=
      Plugin.opened_cases p s.plugin path
        ((o.constructor.prog env).run (Host.openWorld (s.plugin.files path))).2
        ((o.constructor.prog env).run (Host.openWorld (s.plugin.files path))).1
    · exact hs.answer_opened hn hq hr hnext hengines
    · exact hs.answer_unopened hn hq hengines hnext hproper hplain
  | dispose h =>
    obtain ⟨h0, hp, -⟩ := hhandle h rfl
    exact hs.answer_closed hq (Plugin.onMethodCall_dispose env s.plugin h0 hp)
  | ask q =>
    obtain ⟨hk, hproper, hplain⟩ :=
      Plugin.served_keeps p env s.plugin (m := .ask q) rfl rfl hhandle
    exact hs.answer_kept hq rfl hk hproper hplain
  | call h c =>
    obtain ⟨hk, hproper, hplain⟩ :=
      Plugin.served_keeps p env s.plugin (m := .call h c) rfl rfl hhandle
    exact hs.answer_kept hq rfl hk hproper hplain

end Serving

/-- A handle that is delivered is one of an open engine. -/
theorem delivered_open (hs : Sound n s) {q : Sent × Response} (hq : q ∈ s.responses) {h : Int64}
    (hd : delivers q = some h) : disposed h = false := by
  have hmem : h ∈ s.held :=
    List.mem_append_right _ (List.mem_append_left _ (List.mem_filterMap.mpr ⟨q, hq, hd⟩))
  have hb := hs.below h ((hs.held h).mpr hmem)
  exact decide_eq_false (by omega)

/-- The next response is received: a handle on its way becomes an object's. -/
theorem receive (hs : Sound n s) {q : Sent × Response} {rest : List (Sent × Response)}
    (hr : s.responses = q :: rest) :
    Sound n { s with responses := rest, objects := s.objects ++ (delivers q).toList } := by
  have hund : s.undelivered = (delivers q).toList ++ rest.filterMap delivers := by
    show s.responses.filterMap delivers = _
    rw [hr]
    cases hd : delivers q with
    | none => rw [List.filterMap_cons_none hd]; rfl
    | some h => rw [List.filterMap_cons_some hd]; rfl
  have halive : (s.objects ++ (delivers q).toList).filter (fun h => !disposed h) =
      s.alive ++ (delivers q).toList := by
    rw [List.filter_append]
    refine congrArg (s.alive ++ ·) (List.filter_eq_self.mpr fun h hh => ?_)
    have hopen := hs.delivered_open (by rw [hr]; exact List.mem_cons_self ..)
      (Option.mem_toList.mp hh)
    rw [hopen]
    rfl
  have hheld : ({ s with responses := rest, objects := s.objects ++ (delivers q).toList } :
      Channel).held = s.held := by
    show (s.objects ++ (delivers q).toList).filter (fun h => !disposed h) ++
      (rest.filterMap delivers ++ s.closing) = s.alive ++ (s.undelivered ++ s.closing)
    rw [halive, hund]
    simp only [List.append_assoc]
  refine ⟨hs.next_nonneg, hs.next_le, hs.below, ?_, ?_, ?_, hs.last, hs.proper⟩
  · rw [hheld]
    exact hs.nodup
  · rw [hheld]
    exact hs.held
  · rw [hheld]
    exact hs.live

theorem mem_alive {i : ℕ} {h : Int64} (hi : s.objects[i]? = some h) (hd : disposed h = false) :
    h ∈ s.alive :=
  List.mem_filter.mpr ⟨List.mem_of_getElem? hi, by rw [hd]; rfl⟩

theorem step (hs : Sound n s) (p : Platform) (env : Env) (e : Event) (hn : n < p.handles) :
    Sound (n + if e.opens then 1 else 0) (s.step p env e) := by
  unfold Channel.step
  by_cases hcrash : s.crashed = true
  · rw [if_pos hcrash]
    exact { hs with next_le := by have hle := hs.next_le; push_cast; omega }
  rw [if_neg hcrash]
  cases e with
  | «open» path o => exact hs.send (m := .open path o) rfl fun h hh => by cases hh
  | ask q => exact hs.send (m := .ask q) rfl fun h hh => by cases hh
  | call i c =>
    simp only [Channel.live]
    cases hi : s.objects[i]? with
    | none => exact hs
    | some h =>
      show Sound n (if disposed h = true then s else s.send (.call h c))
      by_cases hd : disposed h = true
      · rw [if_pos hd]
        exact hs
      · rw [if_neg hd]
        refine hs.send (m := .call h c) rfl fun k hk => ?_
        cases hk
        exact mem_alive hi (Bool.eq_false_iff.mpr hd)
  | dispose i =>
    simp only [Channel.live]
    cases hi : s.objects[i]? with
    | none => exact hs
    | some h =>
      show Sound n (if disposed h = true then s
        else { s with objects := s.objects.set i (-1) }.send (.dispose h))
      by_cases hd : disposed h = true
      · rw [if_pos hd]
        exact hs
      · rw [if_neg hd]
        exact hs.dispose hi (Bool.eq_false_iff.mpr hd)
  | serve =>
    simp only [Channel.live]
    cases hq : s.requests with
    | nil => exact hs
    | cons m rest => exact hs.serve hn hq
  | receive =>
    simp only [Channel.live]
    cases hr : s.responses with
    | nil => exact hs
    | cons q rest => exact hs.receive hr

theorem run (hs : Sound n s) (p : Platform) (env : Env) (events : List Event)
    (hn : n + events.countP Event.opens < p.handles) :
    Sound (n + events.countP Event.opens) (s.run p env events) := by
  induction events generalizing n s with
  | nil => exact hs
  | cons e events ih =>
    rw [List.countP_cons] at hn ⊢
    have hstep := hs.step p env e (by omega)
    have hrun := ih hstep (by omega)
    have hsum : n + (events.countP Event.opens + if e.opens then 1 else 0) =
        n + (if e.opens then 1 else 0) + events.countP Event.opens := by omega
    rw [hsum]
    exact hrun

theorem start : Sound 0 {} := by
  have hnone : ∀ h, ¬ (∅ : Table Int64 Engine).contains h = true := by
    intro h hh
    obtain ⟨v, hv⟩ := (Table.contains_iff _ _).mp hh
    rw [Table.lookup_empty] at hv
    cases hv
  refine ⟨by decide, by decide, fun h hh => absurd hh (hnone h), List.nodup_nil, ?_, ?_,
    List.Pairwise.nil, ?_⟩
  · intro h
    exact ⟨fun hh => absurd hh (hnone h), fun hh => absurd hh (List.not_mem_nil)⟩
  · intro m hm
    cases hm
  · intro q hq
    cases hq

end Sound

/-- Whatever a Dart program does with its engines, the calls it makes before the responses to
earlier ones arrive and the objects it disposes in between, no message of an object meets a
missing engine or is refused for its arguments; and the engines the plugin keeps open are those the
program still holds, each of them once. -/
theorem handles_stay_valid (p : Platform) (env : Env) (events : List Event)
    (hopens : events.countP Event.opens < p.handles) :
    (∀ q ∈ (Channel.run p env {} events).log, q.2.proper = true) ∧
      (Channel.run p env {} events).held.Nodup ∧
      ∀ h, (Channel.run p env {} events).plugin.engines.contains h = true ↔
        h ∈ (Channel.run p env {} events).held := by
  have hs : Sound _ (Channel.run p env {} events) :=
    Sound.start.run p env events (by rw [Nat.zero_add]; exact hopens)
  exact ⟨hs.proper, hs.nodup, hs.held⟩

theorem handles_stay_valid_disposed :
    let events : List Event :=
      [.open [] .open, .serve, .receive, .call 0 (.remove 1), .dispose 0, .serve, .serve]
    (∀ q ∈ (Channel.run .android .ascii {} events).log, q.2.proper = true) ∧
      (Channel.run .android .ascii {} events).held.Nodup ∧
      ∀ h, (Channel.run .android .ascii {} events).plugin.engines.contains h = true ↔
        h ∈ (Channel.run .android .ascii {} events).held :=
  handles_stay_valid .android .ascii _ (by decide)

end Unfydqry.Flutter
