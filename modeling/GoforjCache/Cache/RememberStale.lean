import GoforjCache.Foundation.Transition
import GoforjCache.Memory.Store

/-!
# Cache - Stale fallback

`RememberStaleBytes` reads a key and calls a loader on a miss.  It keeps what the loader
returns twice: in the key, and with a lifetime of its own in the stale companion of the key.  When
the loader fails, the companion is the answer, if it still exists.

The companion is not written when neither lifetime of the call is positive, so it can be older than
the last value of the loader.

Main results:

- Theorem `inv_step`: the companion is the copy of the last call that wrote one.
- Theorem `stale_is_last_copy`: what a call that falls back returns, in every run.
- Theorem `stale_skips_newer`: a call returns the older of two loaded values.
-/

namespace GoforjCache
namespace RememberStale

open Foundation Foundation.Transition
open Memory (Items)

/-! ## The operation -/

/-- The two calls of a store that the operation makes. -/
structure Backend (σ : Type) where
  get : σ → Instant → Key → Except CacheError (Option Bytes)
  set : σ → Instant → Key → Bytes → Duration → σ × Option CacheError

/-- The memory store: neither call fails. -/
def memory (storeTTL : DefaultTTL) : Backend Items where
  get := fun m now key => .ok (Memory.get m now key)
  set := fun m now key value ttl => (Memory.set storeTTL m now key value ttl, none)

/-- `key + staleSuffix`. -/
def staleKey (key : Key) : Key := key ++ ascii ":__stale"

/-- The instants of a call: it reads the key, it has the answer of the loader, and it writes the
companion. -/
structure Times where
  start : Int
  loaded : Int
  stored : Int
deriving DecidableEq, Repr

/-- The lifetime of the companion; it is not written unless this is positive. -/
def copyTTL (ttl staleTTL : Duration) : Duration := if staleTTL ≤ 0 then ttl else staleTTL

/-- What a call returns, and whether it called the loader.  A value comes with `usedStale`, and
joined errors are a list. -/
structure Answer where
  result : Except (List CacheError) (Bytes × Bool)
  called : Bool
deriving DecidableEq

/-- `rememberStaleBytes`. -/
def rememberStaleBytes {σ : Type} (B : Backend σ) (cacheTTL : DefaultTTL) (s : σ) (t : Times)
    (key : Key) (ttl staleTTL : Duration) (loader : Except CacheError Bytes) : σ × Answer :=
  match B.get s t.start key with
  | .error err => (s, ⟨.error [err], false⟩)
  | .ok (some body) => (s, ⟨.ok (body, false), false⟩)
  | .ok none =>
    match loader with
    | .ok value =>
      match B.set s t.loaded key value (cacheTTL.resolve ttl) with
      | (s, some err) => (s, ⟨.error [err], true⟩)
      | (s, none) =>
        let staleTTL := copyTTL ttl staleTTL
        -- the error of the second write is dropped
        let s :=
          if 0 < staleTTL then
            (B.set s t.stored (staleKey key) value (cacheTTL.resolve staleTTL)).1
          else s
        (s, ⟨.ok (value, false), true⟩)
    | .error err =>
      match B.get s t.loaded (staleKey key) with
      | .ok (some body) => (s, ⟨.ok (body, true), true⟩)
      | .ok none => (s, ⟨.error [err], true⟩)
      | .error staleErr => (s, ⟨.error [err, staleErr], true⟩)

/-! ## Runs -/

/-- What is fixed: the default lifetimes, and the key. -/
structure Setup where
  cacheTTL : DefaultTTL
  storeTTL : DefaultTTL
  key : Key

/-- A call that was made, and what the key held when it began. -/
structure Call where
  ttl : Duration
  staleTTL : Duration
  loader : Except CacheError Bytes
  times : Times
  fresh : Option Bytes
  answer : Answer

/-- The store, the clock, and the calls so far. -/
structure World where
  items : Items
  now : Int
  log : List Call

/-- The steps.  A call takes some time for the loader and between its two writes; `other` is
any other call of the store. -/
inductive Event where
  | call (ttl staleTTL : Duration) (loader : Except CacheError Bytes) (loading storing : Nat)
  | other (op : Op)
  | janitor
  | tick (d : Nat)

/-- One step. -/
def step (S : Setup) (w : World) : Event → Option World
  | .call ttl staleTTL loader loading storing =>
    let t : Times := ⟨w.now, w.now + loading, w.now + loading + storing⟩
    let r := rememberStaleBytes (memory S.storeTTL) S.cacheTTL w.items t S.key ttl staleTTL loader
    some ⟨r.1, t.stored, w.log ++ [⟨ttl, staleTTL, loader, t, Memory.get w.items w.now S.key, r.2⟩]⟩
  | .other op => some { w with items := (Memory.exec S.storeTTL w.now w.items op).1 }
  | .janitor => some { w with items := ExpiringMap.deleteExpired w.items w.now }
  | .tick d => some { w with now := w.now + d }

/-- No call was made, and the companion does not exist. -/
def World.Initial (S : Setup) (w : World) : Prop := w.log = [] ∧ w.items (staleKey S.key) = none

/-- The side condition of a step: nobody else touches the key and its companion. -/
def Undisturbed (S : Setup) : Event → Prop
  | .other op => op.touches S.key = false ∧ op.touches (staleKey S.key) = false
  | _ => True

/-- The call loaded a value and kept a copy of it in the companion. -/
def Call.keepsCopy (c : Call) : Bool :=
  c.answer.called && c.loader.isOk && decide (0 < copyTTL c.ttl c.staleTTL)

/-- The last call that kept a copy. -/
def lastCopy (log : List Call) : Option Call := (log.filter Call.keepsCopy).getLast?

/-! ## What a call can do -/

/-- The store after a call that loaded a value. -/
def loadedItems (S : Setup) (m : Items) (t : Times) (ttl staleTTL : Duration) (v : Bytes) : Items :=
  let m := Memory.set S.storeTTL m t.loaded S.key v (S.cacheTTL.resolve ttl)
  if 0 < copyTTL ttl staleTTL then
    Function.update m (staleKey S.key)
      (some ⟨v, ExpiringMap.deadline t.stored (copyTTL ttl staleTTL)⟩)
  else m

/-- The effects of a call on the store, with its answer. -/
inductive Effect (S : Setup) (m : Items) (t : Times) (ttl staleTTL : Duration)
    (loader : Except CacheError Bytes) : Items × Answer → Prop where
  | hit (body : Bytes) (hfresh : Memory.get m t.start S.key = some body) :
      Effect S m t ttl staleTTL loader (m, ⟨.ok (body, false), false⟩)
  | load (v : Bytes) (hfresh : Memory.get m t.start S.key = none) (hload : loader = .ok v) :
      Effect S m t ttl staleTTL loader
        (loadedItems S m t ttl staleTTL v, ⟨.ok (v, false), true⟩)
  | fallback (err : CacheError) (v : Bytes) (hfresh : Memory.get m t.start S.key = none)
      (hload : loader = .error err) (hstale : Memory.get m t.loaded (staleKey S.key) = some v) :
      Effect S m t ttl staleTTL loader (m, ⟨.ok (v, true), true⟩)
  | fail (err : CacheError) (hfresh : Memory.get m t.start S.key = none)
      (hload : loader = .error err) :
      Effect S m t ttl staleTTL loader (m, ⟨.error [err], true⟩)

/-- The two writes of a call that loaded a value. -/
theorem writes_eq (S : Setup) (m : Items) (t : Times) (ttl staleTTL : Duration) (v : Bytes) :
    (if 0 < copyTTL ttl staleTTL then
      Memory.set S.storeTTL (Memory.set S.storeTTL m t.loaded S.key v (S.cacheTTL.resolve ttl))
        t.stored (staleKey S.key) v (S.cacheTTL.resolve (copyTTL ttl staleTTL))
    else Memory.set S.storeTTL m t.loaded S.key v (S.cacheTTL.resolve ttl)) =
      loadedItems S m t ttl staleTTL v := by
  rw [loadedItems]
  by_cases hpos : 0 < copyTTL ttl staleTTL
  · rw [if_pos hpos, if_pos hpos, S.cacheTTL.resolve_of_pos hpos, Memory.set,
      S.storeTTL.resolve_of_pos hpos]
    rfl
  · rw [if_neg hpos, if_neg hpos]

/-- Every call has one of the four effects. -/
theorem remember_effect (S : Setup) (m : Items) (t : Times) (ttl staleTTL : Duration)
    (loader : Except CacheError Bytes) :
    Effect S m t ttl staleTTL loader
      (rememberStaleBytes (memory S.storeTTL) S.cacheTTL m t S.key ttl staleTTL loader) := by
  unfold rememberStaleBytes memory
  dsimp only
  cases hfresh : Memory.get m t.start S.key with
  | some body => exact .hit body hfresh
  | none =>
    cases hload : loader with
    | ok v =>
      dsimp only
      rw [writes_eq]
      exact .load v hfresh rfl
    | error err =>
      cases hstale : Memory.get m t.loaded (staleKey S.key) with
      | some v => exact .fallback err v hfresh rfl hstale
      | none => exact .fail err hfresh rfl

/-! ## The invariant -/

/-- The value and the expiration of the copy that a call kept. -/
def Call.copy (c : Call) (v : Bytes) : Item Bytes :=
  ⟨v, ExpiringMap.deadline c.times.stored (copyTTL c.ttl c.staleTTL)⟩

/-- What a call returned, given the calls before it. -/
structure Honest (earlier : List Call) (c : Call) : Prop where
  fresh : ∀ body, c.fresh = some body → c.answer = ⟨.ok (body, false), false⟩
  stale : ∀ v, c.answer.result = .ok (v, true) →
    c.answer.called = true ∧ (∃ err, c.loader = .error err) ∧
      ∃ good, lastCopy earlier = some good ∧ good.loader = .ok v ∧
        ExpiringMap.expired c.times.loaded (good.copy v).expiration = false

/-- The invariant, from an instant on: the companion is the copy of the last call that kept one, and
the calls returned what they should. -/
structure Inv (S : Setup) (first : Int) (w : World) : Prop where
  le : first ≤ w.now
  timed : ∀ c ∈ w.log, first ≤ c.times.start ∧ c.times.start ≤ c.times.loaded ∧
    c.times.loaded ≤ c.times.stored ∧ c.times.stored ≤ w.now
  copy : ∀ item, w.items (staleKey S.key) = some item →
    ∃ c v, lastCopy w.log = some c ∧ c.loader = .ok v ∧ item = c.copy v
  history : ∀ earlier c later, w.log = earlier ++ c :: later → Honest earlier c

variable {S : Setup} {first : Int} {w w' : World} {e : Event}

theorem World.Initial.inv (h : w.Initial S) : Inv S w.now w := by
  refine ⟨le_rfl, ?_, ?_, ?_⟩
  · intro c hc
    rw [h.1] at hc
    cases hc
  · intro item hitem
    rw [h.2] at hitem
    cases hitem
  · intro earlier c later hlog
    rw [h.1] at hlog
    exact absurd hlog (List.append_ne_nil_of_right_ne_nil _ (List.cons_ne_nil c later)).symm

theorem key_ne_staleKey (key : Key) : staleKey key ≠ key := by
  intro h
  have hlength := congrArg List.length h
  rw [staleKey, List.length_append] at hlength
  have hpos : (ascii ":__stale").length = 8 := by decide
  omega

theorem lastCopy_concat (log : List Call) (c : Call) :
    lastCopy (log ++ [c]) = if c.keepsCopy then some c else lastCopy log := by
  rw [lastCopy, List.filter_append]
  by_cases h : c.keepsCopy = true
  · simp [h]
  · simp [h, lastCopy]

/-- A step that is no call and leaves the companion alone, or removes it. -/
theorem Inv.of_items (h : Inv S first w) (hlog : w'.log = w.log) (hnow : w.now ≤ w'.now)
    (hitems : w'.items (staleKey S.key) = w.items (staleKey S.key) ∨
      w'.items (staleKey S.key) = none) : Inv S first w' := by
  refine ⟨h.le.trans hnow, ?_, ?_, ?_⟩
  · intro c hc
    rw [hlog] at hc
    obtain ⟨hfirst, hstart, hloaded, hstored⟩ := h.timed c hc
    exact ⟨hfirst, hstart, hloaded, hstored.trans hnow⟩
  · intro item hitem
    rw [hlog]
    rcases hitems with hsame | hnone
    · exact h.copy item (hsame.symm.trans hitem)
    · rw [hnone] at hitem
      cases hitem
  · rw [hlog]
    exact h.history

/-- What the call of an effect leaves in the companion, and what it returned. -/
theorem Inv.effect (h : Inv S first w) {t : Times} {ttl staleTTL : Duration}
    {loader : Except CacheError Bytes} {r : Items × Answer} (ht : t.start = w.now)
    (heffect : Effect S w.items t ttl staleTTL loader r) {c : Call}
    (hc : c = ⟨ttl, staleTTL, loader, t, Memory.get w.items w.now S.key, r.2⟩) :
    (∀ item, r.1 (staleKey S.key) = some item →
      ∃ c' v, lastCopy (w.log ++ [c]) = some c' ∧ c'.loader = .ok v ∧ item = c'.copy v) ∧
    Honest w.log c := by
  have hold : c.keepsCopy = false → lastCopy (w.log ++ [c]) = lastCopy w.log := by
    intro hno
    rw [lastCopy_concat, hno]
    rfl
  subst hc
  rw [← ht] at hold ⊢
  cases heffect with
  | hit body hfresh =>
    refine ⟨?_, ?_, ?_⟩
    · rw [hold (by simp [Call.keepsCopy])]
      exact h.copy
    · intro body' hbody
      rw [Option.some.inj (hfresh.symm.trans hbody)]
    · intro v hv
      cases hv
  | load v hfresh hload =>
    subst hload
    refine ⟨?_, ?_, ?_⟩
    · intro item hitem
      by_cases hpos : 0 < copyTTL ttl staleTTL
      · have hcopy : loadedItems S w.items t ttl staleTTL v (staleKey S.key) =
            some ⟨v, ExpiringMap.deadline t.stored (copyTTL ttl staleTTL)⟩ := by
          rw [loadedItems, if_pos hpos, Function.update_self]
        rw [lastCopy_concat, if_pos (by simp [Call.keepsCopy, Except.isOk, Except.toBool, hpos])]
        exact ⟨_, v, rfl, rfl, Option.some.inj (hitem.symm.trans hcopy)⟩
      · have hkept : loadedItems S w.items t ttl staleTTL v (staleKey S.key) =
            w.items (staleKey S.key) := by
          rw [loadedItems, if_neg hpos]
          exact Function.update_of_ne (key_ne_staleKey S.key) _ _
        rw [hold (by simp [Call.keepsCopy, hpos])]
        exact h.copy item (hkept.symm.trans hitem)
    · intro body hbody
      cases hfresh.symm.trans hbody
    · intro v hv
      cases hv
  | fallback err v hfresh hload hstale =>
    subst hload
    refine ⟨?_, ?_, ?_⟩
    · rw [hold (by simp [Call.keepsCopy, Except.isOk, Except.toBool])]
      exact h.copy
    · intro body hbody
      cases hfresh.symm.trans hbody
    · intro v' hv
      cases hv
      obtain ⟨item, hitem, hlive, rfl⟩ := ExpiringMap.get_eq_some_iff.mp hstale
      obtain ⟨good, value, hlast, hload, rfl⟩ := h.copy item hitem
      exact ⟨rfl, ⟨err, rfl⟩, good, hlast, hload, hlive⟩
  | fail err hfresh hload =>
    subst hload
    refine ⟨?_, ?_, ?_⟩
    · rw [hold (by simp [Call.keepsCopy, Except.isOk, Except.toBool])]
      exact h.copy
    · intro body hbody
      cases hfresh.symm.trans hbody
    · intro v hv
      cases hv

/-- A call keeps the invariant. -/
theorem Inv.call (h : Inv S first w) {ttl staleTTL : Duration} {loader : Except CacheError Bytes}
    {loading storing : Nat}
    (hstep : step S w (.call ttl staleTTL loader loading storing) = some w') : Inv S first w' := by
  simp only [step, Option.some.injEq] at hstep
  subst hstep
  have heffect := remember_effect S w.items ⟨w.now, w.now + loading, w.now + loading + storing⟩ ttl
    staleTTL loader
  obtain ⟨hcopy, hhonest⟩ := h.effect rfl heffect rfl
  have hle := h.le
  refine ⟨?_, ?_, hcopy, ?_⟩
  · dsimp only
    omega
  · intro c hc
    rcases List.mem_append.mp hc with hold | hnew
    · obtain ⟨hfirst, hstart, hloaded, hstored⟩ := h.timed c hold
      refine ⟨hfirst, hstart, hloaded, ?_⟩
      dsimp only
      omega
    · rw [List.mem_singleton.mp hnew]
      dsimp only
      omega
  · intro earlier c later hlog
    rcases concat_eq_append_cons hlog with ⟨rfl, rfl⟩ | ⟨later', hold⟩
    · exact hhonest
    · exact h.history earlier c later' hold

/-- Every step keeps the invariant. -/
theorem inv_step (h : Inv S first w) (hG : Undisturbed S e) (hstep : step S w e = some w') :
    Inv S first w' := by
  cases e with
  | call ttl staleTTL loader loading storing => exact h.call hstep
  | other op =>
    cases hstep
    exact h.of_items rfl le_rfl (Or.inl (Memory.exec_frame hG.2 _ _ _))
  | janitor =>
    cases hstep
    refine h.of_items rfl le_rfl ?_
    dsimp only
    rw [ExpiringMap.deleteExpired]
    cases w.items (staleKey S.key) with
    | none => exact Or.inl rfl
    | some item =>
      dsimp only
      split
      · exact Or.inr rfl
      · exact Or.inl rfl
  | tick d =>
    cases hstep
    exact h.of_items rfl (by dsimp only; omega) (Or.inl rfl)

theorem copyTTL_pos_of_lastCopy {log : List Call} {good : Call} (h : lastCopy log = some good) :
    good ∈ log ∧ 0 < copyTTL good.ttl good.staleTTL := by
  obtain ⟨hmem, hkeeps⟩ := List.mem_filter.mp (List.mem_of_getLast? h)
  simp only [Call.keepsCopy, Bool.and_eq_true, decide_eq_true_eq] at hkeeps
  exact ⟨hmem, hkeeps.2⟩

/--
Calls of `RememberStaleBytes` on one key run over a memory store, with any lifetimes and any
loader results, on a clock that does not go back.  Nobody else writes the key and its companion,
which does not exist at first.  A call that finds the key live returns it and does not call the
loader.  A call that returns `usedStale` has called the loader, which failed, and its value is
the one of the last call before it that loaded a value with `ttl` or `staleTTL` positive.
While the clock is within the range of 64-bit nanoseconds, the copy has not outlived its lifetime.
-/
theorem stale_is_last_copy {w₀ w : World} {es : List Event} (hinit : w₀.Initial S)
    (hundisturbed : ∀ e ∈ es, Undisturbed S e) (hrun : run (step S) w₀ es = some w)
    {earlier later : List Call} {c : Call} (hlog : w.log = earlier ++ c :: later) :
    (∀ body, c.fresh = some body → c.answer = ⟨.ok (body, false), false⟩) ∧
    (∀ v, c.answer.result = .ok (v, true) →
      c.answer.called = true ∧ (∃ err, c.loader = .error err) ∧
        ∃ good, lastCopy earlier = some good ∧ good.loader = .ok v ∧
          (0 ≤ w₀.now → w.now < 2 ^ 63 →
            c.times.loaded ≤ good.times.stored + (copyTTL good.ttl good.staleTTL).toInt)) := by
  have hinv : Inv S w₀.now w :=
    run_preserves_along (fun _ _ _ hw hG hstep => inv_step hw hG hstep) hinit.inv
      (along_of_forall (fun e he _ => hundisturbed e he) w₀) hrun
  obtain ⟨hfresh, hstale⟩ := hinv.history earlier c later hlog
  refine ⟨hfresh, ?_⟩
  intro v hv
  obtain ⟨hcalled, herr, good, hlast, hload, hlive⟩ := hstale v hv
  refine ⟨hcalled, herr, good, hlast, hload, ?_⟩
  intro hnonneg hlt
  obtain ⟨hmem, hpos⟩ := copyTTL_pos_of_lastCopy hlast
  have hgood := hinv.timed good (by rw [hlog]; exact List.mem_append_left _ hmem)
  have hcall := hinv.timed c (by rw [hlog]; simp)
  exact ExpiringMap.le_of_live hpos (by omega) (by omega) hlive

/-! ## A copy that is not written -/

/-- One second. -/
def second : Duration := 1000000000

/-- Values live for a second unless a call says otherwise. -/
def sampleSetup : Setup := ⟨.normalize second, .normalize second, ascii "k"⟩

/-- Nothing is stored, and no call was made. -/
def emptyWorld : World := ⟨fun _ => none, 0, []⟩

/-- A value is loaded; when it has expired, the loader fails. -/
def fallbackRun : List Event :=
  [.call second (60 * second) (.ok (ascii "old")) 1 1, .tick 2000000000,
    .call second second (.error (.external 1)) 1 1]

/-- A value is loaded; when it has expired, another one is loaded without lifetimes; when that one
has expired, the loader fails. -/
def skippingRun : List Event :=
  [.call second (60 * second) (.ok (ascii "old")) 1 1, .tick 2000000000,
    .call 0 0 (.ok (ascii "new")) 1 1, .tick 2000000000,
    .call second second (.error (.external 1)) 1 1]

/-- The end of a run from the empty world. -/
def endOf (es : List Event) : World := (run (step sampleSetup) emptyWorld es).getD emptyWorld

/-- The call of the loader that failed. -/
def failedCall : Call :=
  ⟨second, second, .error (.external 1), ⟨2000000002, 2000000003, 2000000004⟩, none,
    ⟨.ok (ascii "old", true), true⟩⟩

/-- The call after the failure of the loader returns the copy of the call before it, within its
lifetime. -/
theorem fallback_returns_old :
    ∃ good, lastCopy ((endOf fallbackRun).log.take 1) = some good ∧
      good.loader = .ok (ascii "old") ∧
        failedCall.times.loaded ≤ good.times.stored + (copyTTL good.ttl good.staleTTL).toInt := by
  have hrun : run (step sampleSetup) emptyWorld fallbackRun = some (endOf fallbackRun) := rfl
  have hundisturbed : ∀ e ∈ fallbackRun, Undisturbed sampleSetup e := by
    simp [fallbackRun, Undisturbed]
  have hlog : (endOf fallbackRun).log = (endOf fallbackRun).log.take 1 ++ failedCall :: [] := rfl
  obtain ⟨-, -, good, hlast, hload, hlifetime⟩ :=
    (stale_is_last_copy ⟨rfl, rfl⟩ hundisturbed hrun hlog).2 (ascii "old") rfl
  exact ⟨good, hlast, hload, hlifetime (by decide) (by decide)⟩

/-- The loader is called three times.  When it fails, the call returns the value that was loaded
first, although the loader has returned another one since. -/
theorem stale_skips_newer :
    run (step sampleSetup) emptyWorld skippingRun = some (endOf skippingRun) ∧
      (endOf skippingRun).log.map Call.answer =
        [⟨.ok (ascii "old", false), true⟩, ⟨.ok (ascii "new", false), true⟩,
          ⟨.ok (ascii "old", true), true⟩] := by
  refine ⟨rfl, ?_⟩
  decide

end RememberStale
end GoforjCache
