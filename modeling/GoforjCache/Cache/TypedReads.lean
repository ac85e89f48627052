import GoforjCache.Cache.RememberStale
import GoforjCache.Lock.Refresh

/-!
# Cache - Typed read-through

`Remember`, `RememberStale` and `RefreshAheadValueWithCodec` read a key and, on a
miss, call a loader, encode its value and store the bytes.  On a hit all three decode the bytes that
are stored.  On a miss the last two decode the bytes they have just stored, while `Remember`
returns the value of the loader itself.

Main results:

- Theorem `typed_reads_agree_iff`: when the value returned on a miss is the one returned on the
  next hit.
- Theorem `remember_changes_answer`: a value that its codec does not keep.
-/

namespace GoforjCache
namespace TypedReads

open Foundation
open RememberStale (Backend Times rememberStaleBytes staleKey)
open Lock.Refresh (metaKey)

/-! ## The helpers -/

/-- `ValueCodec`. -/
structure ValueCodec (T : Type) where
  encode : T → Except CacheError Bytes
  decode : Bytes → Except CacheError T

/-- The errors of the helpers: the two texts of `refreshAheadBytes` for its durations, and what
a store, a loader or a codec returned. -/
inductive HelperError where
  /-- `cache refresh ahead requires ttl > 0`. -/
  | refreshTTL
  /-- `cache refresh ahead requires refreshAhead > 0`. -/
  | refreshWindow
  /-- Joined errors. -/
  | passed (errs : List CacheError)
deriving DecidableEq, Repr

variable {σ T : Type}

/-- The loader of bytes that a typed helper passes on; a missing callback is a loader that fails. -/
def encoded (codec : ValueCodec T) (fn : Except CacheError T) : Except CacheError Bytes :=
  fn.bind codec.encode

/-- `codec.Decode`, with its error passed on. -/
def decoded (codec : ValueCodec T) (body : Bytes) : Except HelperError T :=
  (codec.decode body).mapError fun err => .passed [err]

/-- `rememberValueWithCodecContext`. -/
def rememberValueWithCodec (B : Backend σ) (cacheTTL : DefaultTTL) (s : σ) (t : Times) (key : Key)
    (ttl : Duration) (fn : Except CacheError T) (codec : ValueCodec T) :
    σ × Except HelperError T :=
  match B.get s t.start key with
  | .error err => (s, .error (.passed [err]))
  | .ok (some body) => (s, decoded codec body)
  | .ok none =>
    match fn with
    | .error err => (s, .error (.passed [err]))
    | .ok val =>
      match codec.encode val with
      | .error err => (s, .error (.passed [err]))
      | .ok body =>
        match B.set s t.loaded key body (cacheTTL.resolve ttl) with
        | (s, some err) => (s, .error (.passed [err]))
        | (s, none) => (s, .ok val)

/-- `rememberStaleValueWithCodecContext`; the value comes with `usedStale`. -/
def rememberStaleValueWithCodec (B : Backend σ) (cacheTTL : DefaultTTL) (s : σ) (t : Times)
    (key : Key) (ttl staleTTL : Duration) (fn : Except CacheError T) (codec : ValueCodec T) :
    σ × Except HelperError (T × Bool) :=
  let r := rememberStaleBytes B cacheTTL s t key ttl staleTTL (encoded codec fn)
  (r.1,
    match r.2.result with
    | .error errs => .error (.passed errs)
    | .ok (body, stale) => (decoded codec body).map fun out => (out, stale))

/-- `refreshAheadBytes` without the goroutine that a hit may start, which runs after the call
has its answer. -/
def refreshAheadBytes (B : Backend σ) (cacheTTL : DefaultTTL) (s : σ) (t : Times) (key : Key)
    (ttl refreshAhead : Duration) (fn : Except CacheError Bytes) : σ × Except HelperError Bytes :=
  if ttl ≤ 0 then (s, .error .refreshTTL)
  else if refreshAhead ≤ 0 then (s, .error .refreshWindow)
  else
    match B.get s t.start key with
    | .error err => (s, .error (.passed [err]))
    | .ok (some body) => (s, .ok body)
    | .ok none =>
      match fn with
      | .error err => (s, .error (.passed [err]))
      | .ok value =>
        match B.set s t.loaded key value (cacheTTL.resolve ttl) with
        | (s, some err) => (s, .error (.passed [err]))
        | (s, none) =>
          let expiresAt := unixNano (t.stored + (cacheTTL.resolve ttl).toInt)
          match B.set s t.stored (metaKey key) (Decimal.formatInt expiresAt)
            (cacheTTL.resolve ttl) with
          | (s, some err) => (s, .error (.passed [err]))
          | (s, none) => (s, .ok value)

/-- `refreshAheadValueWithCodec`. -/
def refreshAheadValueWithCodec (B : Backend σ) (cacheTTL : DefaultTTL) (s : σ) (t : Times)
    (key : Key) (ttl refreshAhead : Duration) (fn : Except CacheError T) (codec : ValueCodec T) :
    σ × Except HelperError T :=
  let r := refreshAheadBytes B cacheTTL s t key ttl refreshAhead (encoded codec fn)
  (r.1, r.2.bind (decoded codec))

/-- One of the three helpers, with its second duration. -/
inductive Helper where
  | remember
  | rememberStale (staleTTL : Duration)
  | refreshAhead (refreshAhead : Duration)
deriving DecidableEq, Repr

/-- A call of a helper, and the value it returns. -/
def Helper.call (B : Backend σ) (cacheTTL : DefaultTTL) (codec : ValueCodec T) (key : Key)
    (ttl : Duration) (s : σ) (t : Times) (fn : Except CacheError T) :
    Helper → σ × Except HelperError T
  | .remember => rememberValueWithCodec B cacheTTL s t key ttl fn codec
  | .rememberStale staleTTL =>
    let r := rememberStaleValueWithCodec B cacheTTL s t key ttl staleTTL fn codec
    (r.1, r.2.map Prod.fst)
  | .refreshAhead window => refreshAheadValueWithCodec B cacheTTL s t key ttl window fn codec

/-! ## A store that returns what was set -/

/-- What becomes of a store when other keys are written, with or without an error. -/
inductive Later (B : Backend σ) (key : Key) : σ → σ → Prop where
  | refl (s : σ) : Later B key s s
  | set {s s' : σ} (now : Instant) (key' : Key) (value : Bytes) (ttl : Duration) (hne : key' ≠ key)
      (h : Later B key s s') : Later B key s (B.set s' now key' value ttl).1

/-- Every later hit of the key has this value. -/
def Returns (B : Backend σ) (key : Key) (value : Bytes) (s : σ) : Prop :=
  ∀ s', Later B key s s' → ∀ now body, B.get s' now key = .ok (some body) → body = value

/-- A store that returns what was set. -/
def Faithful (B : Backend σ) : Prop :=
  ∀ s now key value ttl, (B.set s now key value ttl).2 = none →
    Returns B key value (B.set s now key value ttl).1

variable {B : Backend σ} {key : Key} {s s' s'' : σ}

theorem Later.trans (h : Later B key s s') (h' : Later B key s' s'') : Later B key s s'' := by
  induction h' with
  | refl => exact h
  | set now key' value ttl hne _ ih => exact .set now key' value ttl hne ih

/-- A hit has the value also after other keys were written. -/
theorem Returns.later {value : Bytes} (h : Returns B key value s) (hlater : Later B key s s') :
    Returns B key value s' := by
  intro s'' hlater'
  exact h s'' (hlater.trans hlater')

/-- The memory store returns what was set. -/
theorem faithful_memory (storeTTL : DefaultTTL) : Faithful (RememberStale.memory storeTTL) := by
  intro s now key value ttl _ s' hlater
  have hitem : ∃ expiration, s' key = some ⟨value, expiration⟩ := by
    induction hlater with
    | refl => exact ⟨_, Function.update_self key _ s⟩
    | set now' key' value' ttl' hne _ ih =>
      obtain ⟨expiration, hexp⟩ := ih
      exact ⟨expiration, (Function.update_of_ne hne.symm _ _).trans hexp⟩
  obtain ⟨expiration, hitem⟩ := hitem
  intro now' body hget
  obtain ⟨item, hlookup, -, rfl⟩ := ExpiringMap.get_eq_some_iff.mp (Except.ok.inj hget)
  cases hitem.symm.trans hlookup
  rfl

/-! ## Hits and misses -/

variable {cacheTTL : DefaultTTL} {codec : ValueCodec T} {ttl : Duration} {t : Times}

/-- The durations of a call are accepted. -/
def Helper.Valid (ttl : Duration) : Helper → Prop
  | .refreshAhead window => ¬ttl ≤ 0 ∧ ¬window ≤ 0
  | _ => True

variable {body b : Bytes}

/-- On a hit every helper returns what decoding makes of the stored bytes. -/
theorem Helper.call_hit {H : Helper} (hvalid : H.Valid ttl)
    (hhit : B.get s t.start key = .ok (some body)) (fn : Except CacheError T) :
    (H.call B cacheTTL codec key ttl s t fn).2 = decoded codec body := by
  cases H with
  | remember => simp only [Helper.call, rememberValueWithCodec, hhit]
  | rememberStale staleTTL =>
    simp only [Helper.call, rememberStaleValueWithCodec, rememberStaleBytes, hhit]
    cases decoded codec body <;> rfl
  | refreshAhead window =>
    simp only [Helper.call, refreshAheadValueWithCodec, refreshAheadBytes, if_neg hvalid.1,
      if_neg hvalid.2, hhit]
    rfl

/-- The set of a key that a call makes, with what it writes to other keys after that. -/
def Stores (B : Backend σ) (key : Key) (body : Bytes) (s s' : σ) : Prop :=
  ∃ now ttl, (B.set s now key body ttl).2 = none ∧ Later B key (B.set s now key body ttl).1 s'

/-- A set that succeeds, and what is written to other keys after it. -/
theorem Stores.of_set {now : Instant} {lifetime : Duration} {s₁ : σ}
    (hset : B.set s now key body lifetime = (s₁, none)) (hlater : Later B key s₁ s') :
    Stores B key body s s' := by
  refine ⟨now, lifetime, ?_, ?_⟩
  · rw [hset]
  · rwa [hset]

theorem Stores.returns (hB : Faithful B) (h : Stores B key body s s') : Returns B key body s' := by
  obtain ⟨now, ttl, hset, hlater⟩ := h
  exact (hB s now key body ttl hset).later hlater

theorem metaKey_ne (key : Key) : metaKey key ≠ key := by
  intro h
  have hlength := congrArg List.length h
  rw [metaKey, List.length_append] at hlength
  have hpos : (ascii ":__refresh_exp").length = 14 := by decide
  omega

/-- `Remember` returns the value of its loader on a miss. -/
theorem rememberValueWithCodec_miss {v x : T} (henc : codec.encode v = .ok b)
    (hmiss : B.get s t.start key = .ok none)
    (hcall : rememberValueWithCodec B cacheTTL s t key ttl (.ok v) codec = (s', .ok x)) :
    Stores B key b s s' ∧ x = v := by
  simp only [rememberValueWithCodec, hmiss, henc] at hcall
  cases hset : B.set s t.loaded key b (cacheTTL.resolve ttl) with
  | mk s₁ err =>
    rw [hset] at hcall
    cases err with
    | some err => cases hcall
    | none =>
      cases hcall
      exact ⟨.of_set hset (.refl _), rfl⟩

/-- `RememberStale` decodes what it has stored on a miss. -/
theorem rememberStaleBytes_miss {staleTTL : Duration} (hmiss : B.get s t.start key = .ok none)
    {answer : Bytes × Bool}
    (hcall : (rememberStaleBytes B cacheTTL s t key ttl staleTTL (.ok b)).2.result = .ok answer) :
    Stores B key b s (rememberStaleBytes B cacheTTL s t key ttl staleTTL (.ok b)).1 ∧
      answer.1 = b := by
  simp only [rememberStaleBytes, hmiss] at hcall ⊢
  cases hset : B.set s t.loaded key b (cacheTTL.resolve ttl) with
  | mk s₁ err =>
    rw [hset] at hcall
    cases err with
    | some err => cases hcall
    | none =>
      cases hcall
      refine ⟨.of_set hset ?_, rfl⟩
      dsimp only
      split
      · exact .set _ _ _ _ (RememberStale.key_ne_staleKey key) (.refl _)
      · exact .refl _

/-- `RefreshAhead` decodes what it has stored on a miss. -/
theorem refreshAheadBytes_miss {window : Duration} (hmiss : B.get s t.start key = .ok none)
    (hcall : (refreshAheadBytes B cacheTTL s t key ttl window (.ok b)).2 = .ok body) :
    (¬ttl ≤ 0 ∧ ¬window ≤ 0) ∧
      Stores B key b s (refreshAheadBytes B cacheTTL s t key ttl window (.ok b)).1 ∧ body = b := by
  by_cases httl : ttl ≤ 0
  · rw [refreshAheadBytes, if_pos httl] at hcall
    cases hcall
  by_cases hwindow : window ≤ 0
  · rw [refreshAheadBytes, if_neg httl, if_pos hwindow] at hcall
    cases hcall
  simp only [refreshAheadBytes, if_neg httl, if_neg hwindow, hmiss] at hcall ⊢
  refine ⟨⟨httl, hwindow⟩, ?_⟩
  cases hset : B.set s t.loaded key b (cacheTTL.resolve ttl) with
  | mk s₁ err =>
    rw [hset] at hcall
    cases err with
    | some err => cases hcall
    | none =>
      dsimp only at hcall ⊢
      have hlater : Later B key s₁ (B.set s₁ t.stored (metaKey key)
          (Decimal.formatInt (unixNano (t.stored + (cacheTTL.resolve ttl).toInt)))
          (cacheTTL.resolve ttl)).1 :=
        .set _ _ _ _ (metaKey_ne key) (.refl _)
      cases hmeta : B.set s₁ t.stored (metaKey key)
          (Decimal.formatInt (unixNano (t.stored + (cacheTTL.resolve ttl).toInt)))
          (cacheTTL.resolve ttl) with
      | mk s₂ err =>
        rw [hmeta] at hcall hlater
        cases err with
        | some err => cases hcall
        | none =>
          cases hcall
          exact ⟨.of_set hset hlater, rfl⟩

/-- On a miss `Remember` returns the value of the loader, and the others what decoding makes of
the bytes they have stored. -/
theorem Helper.call_miss {H : Helper} {v x : T} (henc : codec.encode v = .ok b)
    (hmiss : B.get s t.start key = .ok none)
    (hcall : H.call B cacheTTL codec key ttl s t (.ok v) = (s', .ok x)) :
    H.Valid ttl ∧ Stores B key b s s' ∧
      if H = .remember then x = v else decoded codec b = .ok x := by
  have hload : encoded codec (.ok v) = .ok b := henc
  cases H with
  | remember => exact ⟨trivial, rememberValueWithCodec_miss henc hmiss hcall⟩
  | rememberStale staleTTL =>
    simp only [Helper.call, rememberStaleValueWithCodec, hload, Prod.mk.injEq] at hcall
    obtain ⟨rfl, hvalue⟩ := hcall
    refine ⟨trivial, ?_⟩
    cases hresult : (rememberStaleBytes B cacheTTL s t key ttl staleTTL (.ok b)).2.result with
    | error errs =>
      rw [hresult] at hvalue
      cases hvalue
    | ok answer =>
      obtain ⟨hstores, hbody⟩ := rememberStaleBytes_miss hmiss hresult
      refine ⟨hstores, ?_⟩
      rw [hresult] at hvalue
      simp only at hvalue
      rw [hbody] at hvalue
      rw [if_neg (by simp)]
      cases hdec : decoded codec b with
      | error err =>
        rw [hdec] at hvalue
        cases hvalue
      | ok out =>
        rw [hdec] at hvalue
        exact congrArg Except.ok (Except.ok.inj hvalue)
  | refreshAhead window =>
    simp only [Helper.call, refreshAheadValueWithCodec, hload, Prod.mk.injEq] at hcall
    obtain ⟨rfl, hvalue⟩ := hcall
    cases hresult : (refreshAheadBytes B cacheTTL s t key ttl window (.ok b)).2 with
    | error errs =>
      rw [hresult] at hvalue
      cases hvalue
    | ok body =>
      obtain ⟨hvalid, hstores, rfl⟩ := refreshAheadBytes_miss hmiss hresult
      rw [hresult] at hvalue
      refine ⟨hvalid, hstores, ?_⟩
      rw [if_neg (by simp)]
      exact hvalue

/-! ## Miss and hit -/

/--
A helper is called on a miss, loads a value that its codec encodes, and returns a value.  The bytes
decode.  Other keys may be written after that.  The next call that hits then returns a value, and
the two values are the same if and only if the helper is not `Remember`, or the codec gives
back the value of the loader.
-/
theorem typed_reads_agree_iff (hB : Faithful B) (H : Helper) {v v' x : T} {b body : Bytes}
    (henc : codec.encode v = .ok b) (hdec : codec.decode b = .ok v') {t' : Times}
    (hmiss : B.get s t.start key = .ok none)
    (hcall : H.call B cacheTTL codec key ttl s t (.ok v) = (s', .ok x))
    (hlater : Later B key s' s'') (hhit : B.get s'' t'.start key = .ok (some body))
    (fn : Except CacheError T) :
    ∃ y, (H.call B cacheTTL codec key ttl s'' t' fn).2 = .ok y ∧
      (x = y ↔ H ≠ .remember ∨ v' = v) := by
  obtain ⟨hvalid, hstores, hvalue⟩ := Helper.call_miss henc hmiss hcall
  have hbody : body = b := hstores.returns hB s'' hlater t'.start body hhit
  have hdecoded : decoded codec b = .ok v' := by
    rw [decoded, hdec]
    rfl
  refine ⟨v', ?_, ?_⟩
  · rw [Helper.call_hit hvalid hhit, hbody, hdecoded]
  · split at hvalue
    · rename_i hremember
      rw [hvalue]
      simp only [hremember, ne_eq, not_true_eq_false, false_or]
      exact eq_comm
    · rename_i hother
      cases hdecoded.symm.trans hvalue
      exact ⟨fun _ => Or.inl hother, fun _ => rfl⟩

/-! ## A field that is not serialized -/

/-- A value with a field that its codec leaves out. -/
structure Profile where
  name : Bytes
  token : Bytes
deriving DecidableEq, Repr

/-- The JSON object with the name only. -/
def profileCodec : ValueCodec Profile where
  encode := fun p => .ok (ascii "\x7b\"name\":\"" ++ p.name ++ ascii "\"\x7d")
  decode := fun body => .ok ⟨(body.drop 9).dropLast.dropLast, []⟩

/-- The value of the loader. -/
def ada : Profile := ⟨ascii "Ada", ascii "t0"⟩

/-- The value that the stored bytes decode to. -/
def storedAda : Profile := ⟨ascii "Ada", []⟩

/-- The bytes that are stored. -/
def adaBytes : Bytes := ascii "\x7b\"name\":\"Ada\"\x7d"

/-- A memory store with a default of a minute. -/
def sampleStore : Backend Memory.Items := RememberStale.memory (.normalize 60000000000)

/-- A call over that store, for a second. -/
def sampleCall (H : Helper) (m : Memory.Items) (t : Times) :
    Memory.Items × Except HelperError Profile :=
  H.call sampleStore (.normalize 60000000000) profileCodec (ascii "profile") 1000000000 m t
    (.ok ada)

/-- The store after a call of `RememberStale` on an empty one. -/
def warmed : Memory.Items := (sampleCall (.rememberStale 5000000000) (fun _ => none) ⟨0, 1, 2⟩).1

/-- `RememberStale` returns the decoded value on the miss and on the hit after it. -/
theorem typed_reads_agree_rememberStale :
    sampleCall (.rememberStale 5000000000) (fun _ => none) ⟨0, 1, 2⟩ = (warmed, .ok storedAda) ∧
    ∃ y, (sampleCall (.rememberStale 5000000000) warmed ⟨3, 4, 5⟩).2 = .ok y ∧ storedAda = y := by
  have henc : profileCodec.encode ada = .ok adaBytes := by decide
  have hdec : profileCodec.decode adaBytes = .ok storedAda := by decide
  have hmiss : sampleStore.get (fun _ => none) (Times.start ⟨0, 1, 2⟩) (ascii "profile") =
      .ok none := rfl
  have hcall : sampleCall (.rememberStale 5000000000) (fun _ => none) ⟨0, 1, 2⟩ =
      (warmed, .ok storedAda) := rfl
  have hhit : sampleStore.get warmed (Times.start ⟨3, 4, 5⟩) (ascii "profile") =
      .ok (some adaBytes) := rfl
  obtain ⟨y, hy, hiff⟩ := typed_reads_agree_iff (faithful_memory _) _ henc hdec hmiss hcall
    (.refl _) hhit (.ok ada)
  exact ⟨hcall, y, hy, hiff.mpr (Or.inl (by decide))⟩

/-- `Remember` returns the value of the loader on the miss, and another value on the hit after
it. -/
theorem remember_changes_answer :
    Faithful sampleStore ∧
    profileCodec.encode ada = .ok adaBytes ∧ profileCodec.decode adaBytes = .ok storedAda ∧
    (sampleCall .remember (fun _ => none) ⟨0, 1, 2⟩).2 = .ok ada ∧
    (sampleCall .remember (sampleCall .remember (fun _ => none) ⟨0, 1, 2⟩).1 ⟨3, 4, 5⟩).2 =
      .ok storedAda ∧
    ada ≠ storedAda := by
  refine ⟨faithful_memory _, ?_, ?_, rfl, rfl, ?_⟩
  · decide
  · decide
  · decide

end TypedReads
end GoforjCache
