import Mathlib.Data.List.Forall2
import Unfydqry.Flutter.Answers

/-! # The two sides of the plugin answer alike

The plugin exists twice, in Kotlin and in Swift, and the two number their engines differently:
a constructor that fails takes a handle in Kotlin only. A Dart program cannot see that. As
long as its limits fit a Kotlin `Int` and are not negative, every event leaves the two
channels alike: the same messages and responses up to a one-to-one renaming of the handles,
and the same files. What a program does see is the sign of a matched slot. -/

namespace Unfydqry.Flutter

open LockedStore

/-! ### Calls that both sides convert alike -/

/-- A limit both sides pass on. -/
def limitFits (i : Int64) : Prop := 0 ≤ i.toInt ∧ i.toInt < 2 ^ 31

def ApiCall.Plain : ApiCall → Prop
  | .search _ limit => limitFits limit
  | .searchRecords _ limit fieldsPerRecord => limitFits limit ∧ limitFits fieldsPerRecord
  | .changeFieldBits newFieldBits => fits32 newFieldBits
  | _ => True

def Event.Plain : Event → Prop
  | .call _ c => c.Plain
  | _ => True

theorem asInt_of_fits (p : Platform) {i : Int64} (h : fits32 i) : asInt p i = .ok i := by
  cases p with
  | android => exact if_pos h
  | ios => rfl

theorem toUInt_of_fits (p : Platform) {i : Int64} (h : limitFits i) :
    toUInt p i = .ok i.toUInt64.toUInt32 := by
  cases p with
  | android => rfl
  | ios =>
    obtain ⟨h0, h1⟩ := h
    exact if_pos ⟨h0, by omega⟩

theorem limitFits.fits {i : Int64} (h : limitFits i) : fits32 i := by
  obtain ⟨h0, h1⟩ := h
  exact ⟨by omega, h1⟩

/-- A plain call means the same call of the engine on both sides. -/
theorem core_plain {c : ApiCall} (hc : c.Plain) : ∃ core, ∀ p, c.core p = .ok core := by
  cases c with
  | search query limit =>
    refine ⟨.search query limit.toUInt64.toUInt32, fun p => ?_⟩
    have hlimit : limitFits limit := hc
    simp only [ApiCall.core, asInt_of_fits p hlimit.fits, toUInt_of_fits p hlimit, bind,
      Except.bind]
    rfl
  | searchRecords query limit fieldsPerRecord =>
    refine ⟨.searchRecords query limit.toUInt64.toUInt32 fieldsPerRecord.toUInt64.toUInt32,
      fun p => ?_⟩
    have hlimits : limitFits limit ∧ limitFits fieldsPerRecord := hc
    simp only [ApiCall.core, asInt_of_fits p hlimits.1.fits, asInt_of_fits p hlimits.2.fits,
      toUInt_of_fits p hlimits.1, toUInt_of_fits p hlimits.2, bind, Except.bind]
    rfl
  | changeFieldBits newFieldBits =>
    refine ⟨.changeFieldBits (toUByte newFieldBits), fun p => ?_⟩
    have hfits : fits32 newFieldBits := hc
    simp only [ApiCall.core, asInt_of_fits p hfits, bind, Except.bind]
    rfl
  | _ => exact ⟨_, fun _ => rfl⟩

/-! ### Messages and responses up to a renaming of the handles -/

/-- A handle of the first side and the handle of the same engine on the second. -/
abbrev Renaming := Int64 → Int64 → Prop

def Renaming.OneToOne (ρ : Renaming) : Prop :=
  ∀ x y x' y', ρ x y → ρ x' y' → (x = x' ↔ y = y')

/-- One more engine. -/
def Renaming.extend (ρ : Renaming) (h k : Int64) : Renaming := fun x y => ρ x y ∨ x = h ∧ y = k

inductive Sent.Like (ρ : Renaming) : Sent → Sent → Prop where
  | open (path : Text) (o : ApiOpen) : Sent.Like ρ (.open path o) (.open path o)
  | ask (q : ApiQuestion) : Sent.Like ρ (.ask q) (.ask q)
  | call {h k : Int64} (hh : ρ h k) {c : ApiCall} (hc : c.Plain) :
    Sent.Like ρ (.call h c) (.call k c)
  | dispose {h k : Int64} (hh : ρ h k) : Sent.Like ρ (.dispose h) (.dispose k)

inductive Response.Like (ρ : Renaming) : Response → Response → Prop where
  | handle {h k : Int64} (hh : ρ h k) :
    Response.Like ρ (.success (.handle h)) (.success (.handle k))
  | plain {r : Response} (hr : r.plain = true) : Response.Like ρ r r

/-- A message with its response. -/
def Exchanged (ρ : Renaming) (q r : Sent × Response) : Prop :=
  Sent.Like ρ q.1 r.1 ∧ Response.Like ρ q.2 r.2

/-- An object that is disposed on both sides, or open on both. -/
def ObjectLike (ρ : Renaming) (h k : Int64) : Prop :=
  disposed h = true ∧ disposed k = true ∨ disposed h = false ∧ disposed k = false ∧ ρ h k

variable {ρ σ : Renaming}

theorem Sent.Like.mono (hsub : ∀ x y, ρ x y → σ x y) {m m' : Sent} (h : Sent.Like ρ m m') :
    Sent.Like σ m m' := by
  cases h with
  | «open» path o => exact .open path o
  | ask q => exact .ask q
  | call hh hc => exact .call (hsub _ _ hh) hc
  | dispose hh => exact .dispose (hsub _ _ hh)

theorem Response.Like.mono (hsub : ∀ x y, ρ x y → σ x y) {r r' : Response}
    (h : Response.Like ρ r r') : Response.Like σ r r' := by
  cases h with
  | handle hh => exact .handle (hsub _ _ hh)
  | plain hr => exact .plain hr

theorem Exchanged.mono (hsub : ∀ x y, ρ x y → σ x y) {q r : Sent × Response}
    (h : Exchanged ρ q r) : Exchanged σ q r :=
  ⟨h.1.mono hsub, h.2.mono hsub⟩

theorem ObjectLike.mono (hsub : ∀ x y, ρ x y → σ x y) {h k : Int64} (hk : ObjectLike ρ h k) :
    ObjectLike σ h k :=
  hk.imp id fun hh => ⟨hh.1, hh.2.1, hsub _ _ hh.2.2⟩

/-- Alike messages are crashes together. -/
theorem Response.Like.crash {r r' : Response} (h : Response.Like ρ r r') :
    decide (r = .error .crash) = decide (r' = .error .crash) := by
  cases h with
  | handle hh => rfl
  | plain hr => rfl

/-- What two alike exchanges deliver. -/
theorem Exchanged.delivers {q r : Sent × Response} (h : Exchanged ρ q r) :
    Flutter.delivers q = none ∧ Flutter.delivers r = none ∨
      ∃ x y, Flutter.delivers q = some x ∧ Flutter.delivers r = some y ∧ ρ x y := by
  obtain ⟨m, a⟩ := q
  obtain ⟨m', a'⟩ := r
  obtain ⟨hm, ha⟩ := h
  cases ha with
  | plain hr => exact .inl ⟨Sound.delivers_plain hr, Sound.delivers_plain hr⟩
  | handle hh =>
    cases hm with
    | «open» path o => exact .inr ⟨_, _, rfl, rfl, hh⟩
    | _ => exact .inl ⟨rfl, rfl⟩

/-! ### Alike channels -/

structure Alike (ρ : Renaming) (a i : Channel) : Prop where
  oneToOne : ρ.OneToOne
  /-- Only handles that were given out are renamed. -/
  below : ∀ x y, ρ x y →
    x.toInt < a.plugin.nextHandle.toInt ∧ y.toInt < i.plugin.nextHandle.toInt
  files : a.plugin.files = i.plugin.files
  engines : ∀ x y, ρ x y → a.plugin.engines[x]? = i.plugin.engines[y]?
  objects : List.Forall₂ (ObjectLike ρ) a.objects i.objects
  requests : List.Forall₂ (Sent.Like ρ) a.requests i.requests
  responses : List.Forall₂ (Exchanged ρ) a.responses i.responses
  log : List.Forall₂ (Exchanged ρ) a.log i.log
  crashed : a.crashed = i.crashed

section Lists

variable {α β : Type} {R : α → β → Prop} {xs : List α} {ys : List β}

theorem forall₂_snoc (h : List.Forall₂ R xs ys) {x : α} {y : β} (hxy : R x y) :
    List.Forall₂ R (xs ++ [x]) (ys ++ [y]) :=
  List.rel_append h (.cons hxy .nil)

theorem forall₂_getElem? (h : List.Forall₂ R xs ys) (n : ℕ) :
    xs[n]? = none ∧ ys[n]? = none ∨ ∃ x y, xs[n]? = some x ∧ ys[n]? = some y ∧ R x y := by
  induction h generalizing n with
  | nil => exact .inl ⟨rfl, rfl⟩
  | cons hxy _ ih =>
    cases n with
    | zero => exact .inr ⟨_, _, rfl, rfl, hxy⟩
    | succ n => exact ih n

theorem forall₂_set (h : List.Forall₂ R xs ys) (n : ℕ) {x : α} {y : β} (hxy : R x y) :
    List.Forall₂ R (xs.set n x) (ys.set n y) := by
  induction h generalizing n with
  | nil => exact .nil
  | cons hab htail ih =>
    cases n with
    | zero => exact .cons hxy htail
    | succ n => exact .cons hab (ih n)

end Lists

namespace Alike

variable {a i : Channel} {env : Env} {n : ℕ}

/-- Alike messages have alike responses, and the rest of the channels is untouched. -/
theorem answer (h : Alike ρ a i) (hsub : ∀ x y, ρ x y → σ x y) (hone : σ.OneToOne)
    {m m' : Sent} {rest rest' : List Sent} {r r' : Plugin × Response} (hm : Sent.Like ρ m m')
    (hrest : List.Forall₂ (Sent.Like ρ) rest rest') (hr : Response.Like σ r.2 r'.2)
    (hbelow : ∀ x y, σ x y →
      x.toInt < r.1.nextHandle.toInt ∧ y.toInt < r'.1.nextHandle.toInt)
    (hfiles : r.1.files = r'.1.files)
    (hengines : ∀ x y, σ x y → r.1.engines[x]? = r'.1.engines[y]?) :
    Alike σ (a.answered m rest r) (i.answered m' rest' r') := by
  have hq : Exchanged σ (m, r.2) (m', r'.2) := ⟨hm.mono hsub, hr⟩
  have hmono : ∀ q q', Exchanged ρ q q' → Exchanged σ q q' := fun _ _ hqq => hqq.mono hsub
  refine ⟨hone, hbelow, hfiles, hengines, ?_, ?_, ?_, ?_, hr.crash⟩
  · exact h.objects.imp fun _ _ ho => ho.mono hsub
  · exact hrest.imp fun _ _ hs => hs.mono hsub
  · exact forall₂_snoc (h.responses.imp hmono) hq
  · exact forall₂_snoc (h.log.imp hmono) hq

/-- A constructor on the same file. -/
theorem answer_open (h : Alike ρ a i) (ha : Sound n a) (hi : Sound n i) (hn : n < 2 ^ 31)
    {path : Text} {o : ApiOpen} {rest rest' : List Sent}
    (hqa : a.requests = .open path o :: rest) (hqi : i.requests = .open path o :: rest')
    (hrest : List.Forall₂ (Sent.Like ρ) rest rest') :
    ∃ σ : Renaming, (∀ x y, ρ x y → σ x y) ∧
      Alike σ
        (a.answered (.open path o) rest
          (a.plugin.onMethodCall .android env (Sent.open path o).message))
        (i.answered (.open path o) rest'
          (i.plugin.onMethodCall .ios env (Sent.open path o).message)) := by
  have hla := ha.next_le
  have hli := hi.next_le
  have hpa := ha.next_nonneg
  have hpi := hi.next_nonneg
  rw [hqa, List.countP_cons, if_pos (Sound.opens_open path o)] at hla
  rw [hqi, List.countP_cons, if_pos (Sound.opens_open path o)] at hli
  have hna : (Plugin.increment .android a.plugin.nextHandle).toInt =
      a.plugin.nextHandle.toInt + 1 :=
    Plugin.increment_toInt .android hpa (by simp only [Platform.handles]; omega)
  have hni : (Plugin.increment .ios i.plugin.nextHandle).toInt = i.plugin.nextHandle.toInt + 1 :=
    Plugin.increment_toInt .ios hpi (by simp only [Platform.handles]; omega)
  rw [Plugin.onMethodCall_open, Plugin.onMethodCall_open]
  unfold Plugin.construct
  rw [h.files]
  generalize (o.constructor.prog env).run (Host.openWorld (i.plugin.files path)) = run
  obtain ⟨result, w⟩ := run
  -- a failure renames nothing and writes the file alike
  have hfailed : ∀ f, Alike ρ
      (a.answered (.open path o) rest (a.plugin.unopened .android path w.db, .error f))
      (i.answered (.open path o) rest' (i.plugin.unopened .ios path w.db, .error f)) := by
    intro f
    refine h.answer (fun _ _ hxy => hxy) h.oneToOne (.open path o) hrest (.plain rfl) ?_ ?_
      h.engines
    · intro x y hxy
      have hb := h.below x y hxy
      show x.toInt < (Plugin.increment .android a.plugin.nextHandle).toInt ∧
        y.toInt < i.plugin.nextHandle.toInt
      omega
    · show (a.plugin.setFile path w.db).files = (i.plugin.setFile path w.db).files
      simp only [Plugin.setFile, h.files]
  cases result with
  | err e => exact ⟨ρ, fun _ _ hxy => hxy, hfailed _⟩
  | panic => exact ⟨ρ, fun _ _ hxy => hxy, hfailed _⟩
  | ok e =>
    refine ⟨ρ.extend a.plugin.nextHandle i.plugin.nextHandle, fun _ _ => .inl, ?_⟩
    refine h.answer (fun _ _ => .inl) ?_ (.open path o) hrest (.handle (.inr ⟨rfl, rfl⟩)) ?_ ?_ ?_
    · intro x y x' y' hxy hxy'
      obtain hxy | ⟨rfl, rfl⟩ := hxy <;> obtain hxy' | ⟨rfl, rfl⟩ := hxy'
      · exact h.oneToOne x y x' y' hxy hxy'
      · have hb := h.below x y hxy
        rw [← Int64.toInt_inj, ← Int64.toInt_inj]
        omega
      · have hb := h.below x' y' hxy'
        rw [← Int64.toInt_inj, ← Int64.toInt_inj]
        omega
      · exact iff_of_true rfl rfl
    · intro x y hxy
      show x.toInt < (Plugin.increment .android a.plugin.nextHandle).toInt ∧
        y.toInt < (Plugin.increment .ios i.plugin.nextHandle).toInt
      obtain hxy | ⟨rfl, rfl⟩ := hxy
      · have hb := h.below x y hxy
        omega
      · omega
    · show (a.plugin.setFile path w.db).files = (i.plugin.setFile path w.db).files
      simp only [Plugin.setFile, h.files]
    · intro x y hxy
      show (a.plugin.engines.insert _ _)[x]? = (i.plugin.engines.insert _ _)[y]?
      rw [Table.lookup_insert, Table.lookup_insert]
      obtain hxy | ⟨rfl, rfl⟩ := hxy
      · have hb := h.below x y hxy
        rw [if_neg fun hx => by rw [hx] at hb; omega, if_neg fun hy => by rw [hy] at hb; omega]
        exact h.engines x y hxy
      · rw [if_pos rfl, if_pos rfl]

/-- A plain call of one engine. -/
theorem answer_call (h : Alike ρ a i) (ha : Sound n a) (hi : Sound n i) (hn : n < 2 ^ 31)
    {x y : Int64} {c : ApiCall} {rest rest' : List Sent} (hxy : ρ x y) (hc : c.Plain)
    (hqa : a.requests = .call x c :: rest) (hqi : i.requests = .call y c :: rest')
    (hrest : List.Forall₂ (Sent.Like ρ) rest rest') :
    Alike ρ
      (a.answered (.call x c) rest
        (a.plugin.onMethodCall .android env (Sent.call x c).message))
      (i.answered (.call y c) rest'
        (i.plugin.onMethodCall .ios env (Sent.call y c).message)) := by
  have hx := ha.mem_engine (p := .android) hn
    (ha.live (.call x c) (by rw [hqa]; exact List.mem_cons_self ..) x rfl)
  have hy := hi.mem_engine (p := .ios) (by simp only [Platform.handles]; omega)
    (hi.live (.call y c) (by rw [hqi]; exact List.mem_cons_self ..) y rfl)
  obtain ⟨e, hex⟩ := (Table.contains_iff _ _).mp hx.2.2
  have hey : i.plugin.engines[y]? = some e := (h.engines x y hxy).symm.trans hex
  obtain ⟨core, hcore⟩ := core_plain hc
  rw [Plugin.onMethodCall_call env hx.1 hx.2.1 hex, Plugin.onMethodCall_call env hy.1 hy.2.1 hey,
    hcore, hcore]
  show Alike ρ (a.answered _ rest (a.plugin.call env x e core))
    (i.answered _ rest' (i.plugin.call env y e core))
  unfold Plugin.call
  rw [h.files]
  generalize (core.prog env e.opened.engine).run (Host.world (i.plugin.files e.path) e.opened) = run
  refine h.answer (fun _ _ hxy => hxy) h.oneToOne (.call hxy hc) hrest
    (.plain (Plugin.answer_proper Plugin.payload_plain _).2) h.below ?_ ?_
  · show (a.plugin.setFile e.path run.2.db).files = (i.plugin.setFile e.path run.2.db).files
    simp only [Plugin.setFile, h.files]
  · intro x' y' hxy'
    show (a.plugin.engines.insert x _)[x']? = (i.plugin.engines.insert y _)[y']?
    rw [Table.lookup_insert, Table.lookup_insert]
    have hiff := h.oneToOne x' y' x y hxy' hxy
    by_cases hx' : x' = x
    · rw [if_pos hx', if_pos (hiff.mp hx')]
    · rw [if_neg hx', if_neg fun hy' => hx' (hiff.mpr hy')]
      exact h.engines x' y' hxy'

theorem answer_dispose (h : Alike ρ a i) (ha : Sound n a) (hi : Sound n i) (hn : n < 2 ^ 31)
    {x y : Int64} {rest rest' : List Sent} (hxy : ρ x y)
    (hqa : a.requests = .dispose x :: rest) (hqi : i.requests = .dispose y :: rest')
    (hrest : List.Forall₂ (Sent.Like ρ) rest rest') :
    Alike ρ
      (a.answered (.dispose x) rest
        (a.plugin.onMethodCall .android env (Sent.dispose x).message))
      (i.answered (.dispose y) rest'
        (i.plugin.onMethodCall .ios env (Sent.dispose y).message)) := by
  have hx := ha.mem_engine (p := .android) hn
    (ha.live (.dispose x) (by rw [hqa]; exact List.mem_cons_self ..) x rfl)
  have hy := hi.mem_engine (p := .ios) (by simp only [Platform.handles]; omega)
    (hi.live (.dispose y) (by rw [hqi]; exact List.mem_cons_self ..) y rfl)
  rw [Plugin.onMethodCall_dispose env _ hx.1 hx.2.1, Plugin.onMethodCall_dispose env _ hy.1 hy.2.1]
  refine h.answer (fun _ _ hxy => hxy) h.oneToOne (.dispose hxy) hrest (.plain rfl) h.below
    h.files ?_
  intro x' y' hxy'
  show (a.plugin.engines.erase x)[x']? = (i.plugin.engines.erase y)[y']?
  rw [Table.lookup_erase, Table.lookup_erase]
  have hiff := h.oneToOne x' y' x y hxy' hxy
  by_cases hx' : x' = x
  · rw [if_pos hx', if_pos (hiff.mp hx')]
  · rw [if_neg hx', if_neg fun hy' => hx' (hiff.mpr hy')]
    exact h.engines x' y' hxy'

theorem answer_ask (h : Alike ρ a i) (q : ApiQuestion) {rest rest' : List Sent}
    (hrest : List.Forall₂ (Sent.Like ρ) rest rest') :
    Alike ρ
      (a.answered (.ask q) rest (a.plugin.onMethodCall .android env (Sent.ask q).message))
      (i.answered (.ask q) rest' (i.plugin.onMethodCall .ios env (Sent.ask q).message)) := by
  cases q with
  | normalize input o =>
    rw [Plugin.onMethodCall_normalize, Plugin.onMethodCall_normalize]
    exact h.answer (fun _ _ hxy => hxy) h.oneToOne (.ask _) hrest (.plain rfl) h.below h.files
      h.engines
  | reindexStatus path o =>
    rw [Plugin.onMethodCall_reindexStatus, Plugin.onMethodCall_reindexStatus]
    unfold Plugin.reindexStatus
    rw [h.files]
    refine h.answer (fun _ _ hxy => hxy) h.oneToOne (.ask _) hrest
      (.plain (Plugin.answer_proper (fun _ => rfl) _).2) h.below ?_ h.engines
    simp only [Plugin.setFile, h.files]

/-- Both sides serve the next message. -/
theorem serve (h : Alike ρ a i) (ha : Sound n a) (hi : Sound n i) (hn : n < 2 ^ 31) :
    ∃ σ : Renaming, (∀ x y, ρ x y → σ x y) ∧
      Alike σ (a.live .android env .serve) (i.live .ios env .serve) := by
  have hreq := h.requests
  simp only [Channel.live]
  cases hqa : a.requests with
  | nil =>
    rw [hqa] at hreq
    rw [List.forall₂_nil_left_iff.mp hreq]
    exact ⟨ρ, fun _ _ hxy => hxy, h⟩
  | cons m rest =>
    rw [hqa] at hreq
    obtain ⟨m', rest', hm, hrest, hqi⟩ := List.forall₂_cons_left_iff.mp hreq
    rw [hqi]
    cases hm with
    | «open» path o => exact h.answer_open ha hi hn hqa hqi hrest
    | ask q => exact ⟨ρ, fun _ _ hxy => hxy, h.answer_ask q hrest⟩
    | call hxy hc => exact ⟨ρ, fun _ _ hxy => hxy, h.answer_call ha hi hn hxy hc hqa hqi hrest⟩
    | dispose hxy => exact ⟨ρ, fun _ _ hxy => hxy, h.answer_dispose ha hi hn hxy hqa hqi hrest⟩

theorem send (h : Alike ρ a i) {m m' : Sent} (hm : Sent.Like ρ m m') :
    Alike ρ (a.send m) (i.send m') :=
  { h with requests := forall₂_snoc h.requests hm }

/-- The same event on both sides. -/
theorem step (h : Alike ρ a i) (env : Env) (ha : Sound n a) (hi : Sound n i) (hn : n < 2 ^ 31)
    {e : Event} (he : e.Plain) :
    ∃ σ : Renaming, (∀ x y, ρ x y → σ x y) ∧
      Alike σ (a.step .android env e) (i.step .ios env e) := by
  unfold Channel.step
  rw [h.crashed]
  by_cases hcrash : i.crashed = true
  · rw [if_pos hcrash, if_pos hcrash]
    exact ⟨ρ, fun _ _ hxy => hxy, h⟩
  rw [if_neg hcrash, if_neg hcrash]
  cases e with
  | serve => exact h.serve ha hi hn
  | «open» path o => exact ⟨ρ, fun _ _ hxy => hxy, h.send (.open path o)⟩
  | ask q => exact ⟨ρ, fun _ _ hxy => hxy, h.send (.ask q)⟩
  | call j c =>
    refine ⟨ρ, fun _ _ hxy => hxy, ?_⟩
    simp only [Channel.live]
    obtain ⟨hx, hy⟩ | ⟨x, y, hx, hy, hxy⟩ := forall₂_getElem? h.objects j
    · rw [hx, hy]
      exact h
    · rw [hx, hy]
      show Alike ρ (if disposed x = true then a else a.send (.call x c))
        (if disposed y = true then i else i.send (.call y c))
      obtain ⟨hdx, hdy⟩ | ⟨hdx, hdy, hxy⟩ := hxy
      · rw [if_pos hdx, if_pos hdy]
        exact h
      · rw [if_neg (Bool.eq_false_iff.mp hdx), if_neg (Bool.eq_false_iff.mp hdy)]
        exact h.send (.call hxy he)
  | dispose j =>
    refine ⟨ρ, fun _ _ hxy => hxy, ?_⟩
    simp only [Channel.live]
    obtain ⟨hx, hy⟩ | ⟨x, y, hx, hy, hxy⟩ := forall₂_getElem? h.objects j
    · rw [hx, hy]
      exact h
    · rw [hx, hy]
      show Alike ρ
        (if disposed x = true then a
          else { a with objects := a.objects.set j (-1) }.send (.dispose x))
        (if disposed y = true then i
          else { i with objects := i.objects.set j (-1) }.send (.dispose y))
      obtain ⟨hdx, hdy⟩ | ⟨hdx, hdy, hxy⟩ := hxy
      · rw [if_pos hdx, if_pos hdy]
        exact h
      · rw [if_neg (Bool.eq_false_iff.mp hdx), if_neg (Bool.eq_false_iff.mp hdy)]
        have hset : Alike ρ { a with objects := a.objects.set j (-1) }
            { i with objects := i.objects.set j (-1) } :=
          { h with objects := forall₂_set h.objects j (.inl ⟨by decide, by decide⟩) }
        exact hset.send (.dispose hxy)
  | receive =>
    refine ⟨ρ, fun _ _ hxy => hxy, ?_⟩
    have hres := h.responses
    simp only [Channel.live]
    cases hra : a.responses with
    | nil =>
      rw [hra] at hres
      rw [List.forall₂_nil_left_iff.mp hres]
      exact h
    | cons q rest =>
      rw [hra] at hres
      obtain ⟨q', rest', hq, hrest, hri⟩ := List.forall₂_cons_left_iff.mp hres
      rw [hri]
      show Alike ρ { a with responses := rest, objects := a.objects ++ (delivers q).toList }
        { i with responses := rest', objects := i.objects ++ (delivers q').toList }
      refine { h with responses := hrest, objects := ?_ }
      obtain ⟨hx, hy⟩ | ⟨x, y, hx, hy, hxy⟩ := hq.delivers
      · rw [hx, hy]
        exact List.rel_append h.objects .nil
      · have hdx := ha.delivered_open (by rw [hra]; exact List.mem_cons_self ..) hx
        have hdy := hi.delivered_open (by rw [hri]; exact List.mem_cons_self ..) hy
        rw [hx, hy]
        exact forall₂_snoc h.objects (.inr ⟨hdx, hdy, hxy⟩)

/-- Any run of events. -/
theorem run (h : Alike ρ a i) (env : Env) (ha : Sound n a) (hi : Sound n i) (events : List Event)
    (hn : n + events.countP Event.opens < 2 ^ 31) (hplain : ∀ e ∈ events, e.Plain) :
    ∃ σ : Renaming, (∀ x y, ρ x y → σ x y) ∧
      Alike σ (a.run .android env events) (i.run .ios env events) := by
  induction events generalizing ρ a i n with
  | nil => exact ⟨ρ, fun _ _ hxy => hxy, h⟩
  | cons e events ih =>
    rw [List.countP_cons] at hn
    obtain ⟨σ, hsub, hstep⟩ := h.step env ha hi (by omega)
      (hplain e (List.mem_cons_self ..))
    have ha' := ha.step .android env e (by simp only [Platform.handles]; omega)
    have hi' := hi.step .ios env e (by simp only [Platform.handles]; omega)
    obtain ⟨τ, hsub', hrun⟩ := ih hstep ha' hi' (by omega) fun e' he' =>
      hplain e' (List.mem_cons_of_mem _ he')
    exact ⟨τ, fun x y hxy => hsub' x y (hsub x y hxy), hrun⟩

theorem start : Alike (fun _ _ => False) {} {} := by
  refine ⟨?_, ?_, rfl, ?_, .nil, .nil, .nil, .nil, rfl⟩
  · intro x y x' y' hxy
    exact hxy.elim
  · intro x y hxy
    exact hxy.elim
  · intro x y hxy
    exact hxy.elim

end Alike

/-! ### What the program sees -/

/-- What the futures of one message complete with on the two sides: Kotlin reads the slots of a
record hit as signed bytes. -/
inductive CompletedAlike (ρ : Renaming) : Option Completion → Option Completion → Prop where
  | engine {h k : Int64} (hh : ρ h k) :
    CompletedAlike ρ (some (.ok (.engine h))) (some (.ok (.engine k)))
  | records (hits : List RecordHit) :
    CompletedAlike ρ (some (.ok (.records (hits.map (dartRecordHit .android)))))
      (some (.ok (.records (hits.map (dartRecordHit .ios)))))
  | same (c : Option Completion) : CompletedAlike ρ c c

theorem Response.Like.value {r r' : Response} (h : Response.Like ρ r r') :
    CompletedAlike ρ (r.value .android) (r'.value .ios) := by
  cases h with
  | handle hh => exact .engine hh
  | plain hr =>
    cases r with
    | success v =>
      cases v with
      | records hits => exact .records hits
      | _ => exact .same _
    | error f => cases f <;> exact .same _
    | notImplemented => exact .same _

end Unfydqry.Flutter
