import GoforjCache.Core.Contract
import GoforjCache.Foundation.Transition
import GoforjCache.Redis.Store

/-!
# Redis - Counters and their expiry

`Increment` sends `INCRBY`, which keeps the expiry of a key and makes a new key without
one, and then `EXPIRE`.  The second command may fail after the first one has taken effect: the
call returns an error, but the counter has moved, and a counter that is new never expires.

Main results:

- Theorem `Dated.exec`: a call that is not torn in this way leaves no key of the store without
  an expiry.
- Theorem `increments_all_or_nothing_iff`: along a run from an empty namespace counters are
  all or nothing if and only if no call is torn.
- Theorem `expire_failure_leaves_permanent_counter`: one failed `EXPIRE` makes a counter
  that never expires.
-/

namespace GoforjCache
namespace Redis

open Function Foundation Foundation.Transition Foundation.Decimal
open Nats (millis)

/-! ## Runs of calls -/

/-- One call of the store: its operation, the instant, and how the server behaves. -/
structure Call where
  svc : Service
  now : Instant
  op : Op

/-- The keyspace and the reply after a call. -/
def Call.result (cfg : Config) (c : Call) (t : Keyspace) : Keyspace × Except RedisError Res :=
  exec c.svc cfg c.now c.op t

/-- One call. -/
def callStep (cfg : Config) (t : Keyspace) (c : Call) : Option Keyspace := some (c.result cfg t).1

/-- The entry has an expiry. -/
def HasExpiry (found : Option Entry) : Prop := ∀ e ∈ found, e.expires.isSome

/-- Every key of the namespace carries an expiry. -/
def Dated (cfg : Config) (t : Keyspace) : Prop := ∀ key, HasExpiry (t (cacheKey cfg key))

/-- A counter call that returns an error leaves the value and the expiry of its key alone. -/
def Unchanged (cfg : Config) (t : Keyspace) (c : Call) : Prop :=
  ∀ key delta ttl err, c.op.counter = some (key, delta, ttl) → (c.result cfg t).2 = .error err →
    (c.result cfg t).1.find c.now (cacheKey cfg key) = t.find c.now (cacheKey cfg key)

/-- What is asked of every call: every key carries an expiry afterwards, and a counter call that
fails has changed nothing. -/
def AllOrNothing (cfg : Config) (t : Keyspace) (c : Call) : Prop :=
  Dated cfg (c.result cfg t).1 ∧ Unchanged cfg t c

/-- `INCRBY` changes what stands under a key: there is nothing yet, or an integer to which a delta
other than zero can be added. -/
def Moves (delta : Int64) (found : Option Entry) : Prop :=
  match found with
  | none => True
  | some e => delta ≠ 0 ∧
    ∃ n, storedInt e.value = some n ∧ (n + delta).toInt = n.toInt + delta.toInt

/-- The server takes an `INCRBY` that changes its key, and refuses the `EXPIRE` after it. -/
def Tears (svc : Service) (cfg : Config) (delta : Int64) (found : Option Entry) : Prop :=
  cfg.client ≠ .missing ∧ svc.refuses .incrBy = none ∧ svc.refuses .expire ≠ none ∧
    Moves delta found

/-- The call is a counter call that its server tears. -/
def Torn (cfg : Config) (t : Keyspace) (c : Call) : Prop :=
  ∃ key delta ttl, c.op.counter = some (key, delta, ttl) ∧
    Tears c.svc cfg delta (t.find c.now (cacheKey cfg key))

/-! ## Effects that leave no key without an expiry -/

section Keeps

variable {cfg : Config} {svc : Service} {now : Instant} {α β : Type}

/-- The effect leaves no key of the store without an expiry. -/
def KeepsDated (cfg : Config) (f : Effect α) : Prop := ∀ t, Dated cfg t → Dated cfg (f t).1

variable {f : Effect α}

theorem KeepsDated.withClient (h : KeepsDated cfg f) : KeepsDated cfg (cfg.withClient f) := by
  unfold Config.withClient
  split
  · exact fun _ ht => ht
  · exact h

theorem KeepsDated.withScripts (h : KeepsDated cfg f) : KeepsDated cfg (cfg.withScripts f) := by
  unfold Config.withScripts
  split
  · exact fun _ ht => ht
  · exact fun _ ht => ht
  · exact h

theorem KeepsDated.command (h : KeepsDated cfg f) (c : Command) :
    KeepsDated cfg (svc.command c f) := by
  unfold Service.command
  split
  · exact fun _ ht => ht
  · exact h

theorem KeepsDated.map (h : KeepsDated cfg f) (g : α → β) : KeepsDated cfg (f.map g) := h

theorem HasExpiry.filter {found : Option Entry} (h : HasExpiry found) (p : Entry → Bool) :
    HasExpiry (found.filter p) := by
  intro e he
  exact h e (Option.mem_filter_iff.mp he).1

/-- A new entry of one key has to have an expiry. -/
theorem Dated.update {t : Keyspace} (ht : Dated cfg t) {found : Option Entry}
    (hfound : HasExpiry found) (k : Key) : Dated cfg (update t k found) := by
  intro key
  by_cases hkey : cacheKey cfg key = k
  · rw [hkey, update_self]
    exact hfound
  · rw [update_of_ne hkey]
    exact ht key

/-- Dropping an entry that no longer exists does no harm. -/
theorem Dated.hasExpiry_find {t : Keyspace} (ht : Dated cfg t) (key : Key) :
    HasExpiry (t.find now (cacheKey cfg key)) :=
  (ht key).filter _

/-- A command on one key, given what it leaves there. -/
theorem keepsDated_onKey {key : Key} {f : Option Entry → Option Entry × Except RedisError α}
    (h : ∀ found, HasExpiry found → HasExpiry (f found).1) :
    KeepsDated cfg (onKey now (cacheKey cfg key) f) := by
  intro t ht
  exact ht.update (h _ (ht.hasExpiry_find key)) _

/-- Deletions leave the entries that stay alone. -/
theorem keepsDated_del (ks : List Key) : KeepsDated cfg (delCommand ks) := by
  intro t ht key e he
  unfold delCommand at he
  dsimp only at he
  split at he
  · cases he
  · exact ht key e he

theorem keepsDated_flushPages (pages : List Page) : KeepsDated cfg (flushPages pages) := by
  induction pages with
  | nil => exact fun _ ht => ht
  | cons page pages ih =>
    intro t ht
    cases page with
    | failed code => exact ht
    | keys ks refused =>
      unfold flushPages
      split
      · exact ih t ht
      · cases refused with
        | some code => exact ht
        | none => exact ih _ (keepsDated_del ks t ht)

theorem hasExpiry_setEntry (value : Bytes) (ttl : Duration) :
    HasExpiry (some (setEntry now value ttl)) := by
  intro e he
  cases he
  rfl

theorem hasExpiry_none : HasExpiry none := by
  intro e he
  cases he

theorem keepsDated_add (key : Key) (value : Bytes) (ttl : Duration) :
    KeepsDated cfg (add svc cfg now key value ttl) := by
  refine ((keepsDated_onKey ?_).command _).withClient
  intro found hfound
  cases found with
  | none => exact hasExpiry_setEntry value _
  | some e => exact hfound

/-- The calls that are not counters leave no key without an expiry. -/
theorem keepsDated_exec {op : Op} (hop : op.counter = none) :
    KeepsDated cfg (exec svc cfg now op) := by
  cases op with
  | get key =>
    exact (((keepsDated_onKey fun _ hfound => hfound).command _).withClient).map _
  | set key value ttl =>
    exact (((keepsDated_onKey fun _ _ => hasExpiry_setEntry value _).command _).withClient).map _
  | add key value ttl => exact (keepsDated_add key value ttl).map _
  | increment key delta ttl | decrement key delta ttl => cases hop
  | delete key => exact (((keepsDated_del _).command _).withClient).map _
  | deleteMany keys =>
    have hmany : KeepsDated cfg (deleteMany svc cfg keys) := by
      refine KeepsDated.withClient ?_
      split
      · exact fun _ ht => ht
      · exact (keepsDated_del _).command _
    exact hmany.map _
  | flush => exact ((keepsDated_flushPages _).withClient).map _
  | lockAcquire key owner ttl => exact ((keepsDated_add key owner ttl).withScripts).map _
  | lockRelease key owner =>
    refine (((keepsDated_onKey ?_).command _).withScripts).map _
    intro found hfound
    cases found with
    | none => exact hasExpiry_none
    | some e =>
      dsimp only
      split
      · exact hasExpiry_none
      · exact hfound

end Keeps

/-! ## The two commands of a counter -/

section Counter

variable {svc : Service} {cfg : Config} {now : Instant} {key : Key} {delta : Int64}
  {ttl : Duration} {t : Keyspace}

/-- The entry that `INCRBY` leaves when it succeeds. -/
def Counts (delta : Int64) (found : Option Entry) (n : Int64) (e : Entry) : Prop :=
  (found = none ∧ n = delta ∧ e = ⟨formatInt delta, none⟩) ∨
    ∃ old m, found = some old ∧ storedInt old.value = some m ∧
      (m + delta).toInt = m.toInt + delta.toInt ∧ n = m + delta ∧
      e = ⟨formatInt (m + delta), old.expires⟩

variable {e : Entry} {n : Int64} {k : Key}

theorem moves_some_iff (h : storedInt e.value = some n) :
    Moves delta (some e) ↔ delta ≠ 0 ∧ (n + delta).toInt = n.toInt + delta.toInt := by
  simp only [Moves, h, Option.some.injEq, exists_eq_left']

/-- `INCRBY` leaves a key as it was, or counts. -/
theorem incrBy_cases (now : Instant) (t : Keyspace) (k : Key) (delta : Int64) :
    (∃ err, ¬Moves delta (t.find now k) ∧
      incrByCommand now k delta t = (update t k (t.find now k), .error err)) ∨
    ∃ n e, Counts delta (t.find now k) n e ∧
      incrByCommand now k delta t = (update t k (some e), .ok n) := by
  unfold incrByCommand onKey
  cases hfound : t.find now k with
  | none => exact Or.inr ⟨delta, _, Or.inl ⟨rfl, rfl, rfl⟩, rfl⟩
  | some old =>
    dsimp only
    cases hstored : storedInt old.value with
    | none => exact Or.inl ⟨.notInteger, by simp [Moves, hstored], rfl⟩
    | some m =>
      dsimp only
      split
      · rename_i hsum
        exact Or.inr ⟨m + delta, _, Or.inr ⟨old, m, rfl, hstored, hsum, rfl, rfl⟩, rfl⟩
      · rename_i hsum
        exact Or.inl ⟨.overflow, fun h => hsum ((moves_some_iff hstored).mp h).2, rfl⟩

/-- What exists is found where it stands. -/
theorem find_update_self {found : Option Entry} (hlive : ∀ e ∈ found, e.live now = true) :
    Keyspace.find (update t k found) now k = found := by
  unfold Keyspace.find
  rw [update_self]
  cases found with
  | none => rfl
  | some e => exact if_pos (hlive e rfl)

theorem live_of_find (h : t.find now k = some e) : e.live now = true :=
  (Option.filter_eq_some_iff.mp h).2

/-- What `INCRBY` leaves exists. -/
theorem Counts.live (h : Counts delta (t.find now k) n e) : e.live now = true := by
  rcases h with ⟨-, -, rfl⟩ | ⟨old, m, hold, -, -, -, rfl⟩
  · rfl
  · have hlive : old.live now = true := live_of_find hold
    exact hlive

/-- The stored text of a counter is the one that the server writes. -/
theorem formatInt_of_storedInt {value : Bytes} {m : Int64} (h : storedInt value = some m) :
    formatInt m = value := by
  unfold storedInt at h
  split at h
  · split at h
    · rename_i heq
      cases h
      exact heq
    · cases h
  · cases h

/-- An `INCRBY` that succeeds leaves the entry as it was if and only if it does not change its
key. -/
theorem Counts.unchanged_iff {found : Option Entry} (h : Counts delta found n e) :
    some e = found ↔ ¬Moves delta found := by
  rcases h with ⟨rfl, -, rfl⟩ | ⟨old, m, rfl, hm, hsum, -, rfl⟩
  · simp [Moves]
  · have hvalue := formatInt_of_storedInt hm
    rw [moves_some_iff hm, and_iff_left hsum, not_not]
    constructor
    · intro heq
      have htext : formatInt (m + delta) = formatInt m := by
        rw [hvalue]
        exact congrArg Entry.value (Option.some.inj heq)
      have hsame : m + delta = m := formatInt_injective htext
      simpa using hsame
    · rintro rfl
      rw [Int64.add_zero, hvalue]

/-- A counter call fails and leaves its key as it was, or sets an expiry, or is torn and changes
its key. -/
theorem increment_cases (svc : Service) (cfg : Config) (now : Instant) (key : Key) (delta : Int64)
    (ttl : Duration) (t : Keyspace) : let k := cacheKey cfg key
    (¬Tears svc cfg delta (t.find now k) ∧
      ((∃ err t', (t' = t ∨ t' = update t k (t.find now k)) ∧
        increment svc cfg now key delta ttl t = (t', .error err)) ∨
      ∃ n e, e.expires.isSome ∧
        increment svc cfg now key delta ttl t = (update t k (some e), .ok n))) ∨
    (Tears svc cfg delta (t.find now k) ∧ ∃ e err, e.live now = true ∧ some e ≠ t.find now k ∧
      increment svc cfg now key delta ttl t = (update t k (some e), .error err)) := by
  intro k
  cases hclient : cfg.client with
  | missing =>
    refine Or.inl ⟨fun h => h.1 hclient, Or.inl ⟨.unavailable, t, Or.inl rfl, ?_⟩⟩
    simp only [increment, Config.withClient, hclient]
  | plain | scripted =>
    simp only [increment, Config.withClient, hclient, Service.command]
    cases hincrBy : svc.refuses .incrBy with
    | some code =>
      refine Or.inl ⟨?_, Or.inl ⟨.client code, t, Or.inl rfl, rfl⟩⟩
      rintro ⟨-, htaken, -⟩
      cases hincrBy.symm.trans htaken
    | none =>
      rcases incrBy_cases now t k delta with ⟨err, hstays, heq⟩ | ⟨n, e, hcounts, heq⟩
      · refine Or.inl ⟨fun h => hstays h.2.2.2, Or.inl ⟨err, _, Or.inr rfl, ?_⟩⟩
        simp only [Effect.andThen, k] at heq ⊢
        rw [heq]
      · have hfind : Keyspace.find (update t k (some e)) now k = some e := by
          apply find_update_self
          intro e' he'
          cases he'
          exact hcounts.live
        simp only [Effect.andThen]
        rw [heq]
        cases hexpire : svc.refuses .expire with
        | some code =>
          by_cases hmoves : Moves delta (t.find now k)
          · have htears : Tears svc cfg delta (t.find now k) :=
              ⟨by simp [hclient], hincrBy, by simp [hexpire], hmoves⟩
            have hmoved : some e ≠ t.find now k := fun h => hcounts.unchanged_iff.mp h hmoves
            exact Or.inr ⟨htears, e, .expire (.client code), hcounts.live, hmoved, rfl⟩
          · refine Or.inl ⟨fun h => hmoves h.2.2.2, Or.inl ⟨.expire (.client code), _, ?_, rfl⟩⟩
            exact Or.inr (congrArg (update t k) (hcounts.unchanged_iff.mpr hmoves))
        | none =>
          let expires := millis now + expireMillis (cfg.defaultTTL.resolve ttl)
          refine Or.inl ⟨fun h => h.2.2.1 hexpire, ?_⟩
          refine Or.inr ⟨n, { e with expires := some expires }, rfl, ?_⟩
          simp only [Effect.map, Effect.mapError, expireCommand, onKey]
          rw [hfind, update_idem]
          rfl

end Counter

/-! ## All or nothing -/

section Runs

variable {cfg : Config} {t : Keyspace} {c : Call}

/-- A counter call is `Increment` with its signed delta. -/
theorem result_of_counter {key : Key} {delta : Int64} {ttl : Duration}
    (h : c.op.counter = some (key, delta, ttl)) (cfg : Config) (t : Keyspace) :
    c.result cfg t = ((increment c.svc cfg c.now key delta ttl).map .number) t := by
  rcases c with ⟨svc, now, op⟩
  cases op <;> cases h <;> rfl

/-- Leaving out an entry that no longer exists changes nothing that is found. -/
theorem find_dropped {t' : Keyspace} {now : Instant} {k : Key}
    (h : t' = t ∨ t' = update t k (t.find now k)) : t'.find now k = t.find now k := by
  rcases h with rfl | rfl
  · rfl
  · exact find_update_self fun e he => live_of_find he

/-- A counter call is torn if and only if its server tears it. -/
theorem torn_iff {key : Key} {delta : Int64} {ttl : Duration}
    (h : c.op.counter = some (key, delta, ttl)) :
    Torn cfg t c ↔ Tears c.svc cfg delta (t.find c.now (cacheKey cfg key)) := by
  constructor
  · rintro ⟨_, _, _, hop, htears⟩
    cases h.symm.trans hop
    exact htears
  · intro htears
    exact ⟨key, delta, ttl, h, htears⟩

/-- A call that is not torn leaves no key of the store without an expiry. -/
theorem Dated.exec (ht : Dated cfg t) (hc : ¬Torn cfg t c) : Dated cfg (c.result cfg t).1 := by
  cases hop : c.op.counter with
  | none => exact keepsDated_exec hop t ht
  | some counter =>
    rcases counter with ⟨key, delta, ttl⟩
    rw [result_of_counter hop, Effect.map]
    rcases increment_cases c.svc cfg c.now key delta ttl t with
      ⟨-, ⟨err, t', hsame, heq⟩ | ⟨n, e, he, heq⟩⟩ | ⟨htears, -⟩
    · rw [heq]
      rcases hsame with rfl | rfl
      · exact ht
      · exact ht.update (ht.hasExpiry_find key) _
    · rw [heq]
      refine ht.update ?_ _
      intro e' he'
      cases he'
      exact he
    · exact absurd ((torn_iff hop).mpr htears) hc

/-- A counter call that fails has changed nothing if and only if it is not torn. -/
theorem unchanged_iff_not_torn : Unchanged cfg t c ↔ ¬Torn cfg t c := by
  cases hop : c.op.counter with
  | none =>
    constructor
    · rintro - ⟨key, delta, ttl, hop', -⟩
      cases hop.symm.trans hop'
    · intro _ key delta ttl err hop'
      cases hop.symm.trans hop'
  | some counter =>
    rcases counter with ⟨key, delta, ttl⟩
    have hresult := result_of_counter hop cfg t
    rw [torn_iff hop]
    rcases increment_cases c.svc cfg c.now key delta ttl t with
      ⟨hwhole, ⟨err, t', hsame, heq⟩ | ⟨n, e, -, heq⟩⟩ | ⟨htears, e, err, hlive, hmoved, heq⟩
    all_goals rw [Effect.map, heq] at hresult
    · refine iff_of_true ?_ hwhole
      intro _ _ _ _ hop' _
      cases hop.symm.trans hop'
      rw [hresult]
      exact find_dropped hsame
    · refine iff_of_true ?_ hwhole
      intro _ _ _ _ _ herr
      rw [hresult] at herr
      cases herr
    · refine iff_of_false ?_ (not_not_intro htears)
      intro h
      have hsame := h key delta ttl err hop (congrArg Prod.snd hresult)
      rw [hresult] at hsame
      refine hmoved (Eq.trans (Eq.symm ?_) hsame)
      exact find_update_self fun e' he' => by cases he'; exact hlive

/--
Redis counters are all or nothing, as long as no call is torn, and only then.  Take any run of calls
on a store whose namespace is empty at the start, with any commands failing at any call.  Every key
carries an expiry after every call, and every `Increment` and `Decrement` that returns an
error leaves the value and the expiry of its key as they were, if and only if the server never takes
the `INCRBY` of a counter call and refuses its `EXPIRE`, where the key is missing or holds an
integer that the delta changes within 64 bits.
-/
theorem increments_all_or_nothing_iff (cfg : Config) (start : Keyspace)
    (hempty : ∀ key, start (cacheKey cfg key) = none) (calls : List Call) :
    Along (callStep cfg) (AllOrNothing cfg) start calls ↔
      Along (callStep cfg) (fun t c => ¬Torn cfg t c) start calls := by
  have hstart : Dated cfg start := by
    intro key
    rw [hempty key]
    exact hasExpiry_none
  have hstep : ∀ t c t', Dated cfg t → ¬Torn cfg t c → callStep cfg t c = some t' →
      Dated cfg t' := by
    intro t c t' ht hc hnext
    cases hnext
    exact ht.exec hc
  constructor
  · intro h
    exact along_of_invariant (P := fun _ => True) (fun _ _ _ _ _ _ => trivial)
      (fun t c _ hall => unchanged_iff_not_torn.mp hall.2) trivial h
  · intro h
    exact along_of_invariant hstep
      (fun t c ht hc => ⟨ht.exec hc, unchanged_iff_not_torn.mpr hc⟩) hstart h

end Runs

/-! ## A failed `EXPIRE` -/

/-- A store with a client that has no scripts. -/
def plainConfig : Config := Config.new .plain [] 0

/-- A server that does what it is asked for, except for `EXPIRE`. -/
def withoutExpire : Service := ⟨fun c => if c = .expire then some 1 else none, []⟩

/-- Two updates of a counter, and one that fails at its first command. -/
def wholeUpdates : List Call :=
  [⟨.willing, 0, .increment (ascii "hits") 1 60000000000⟩,
    ⟨.willing, 0, .decrement (ascii "hits") 3 60000000000⟩,
    ⟨⟨fun c => if c = .incrBy then some 1 else none, []⟩, 0,
      .increment (ascii "hits") 1 60000000000⟩]

/-- On these calls counters are all or nothing. -/
theorem increments_all_or_nothing_whole :
    Along (callStep plainConfig) (AllOrNothing plainConfig) (fun _ => none) wholeUpdates := by
  refine (increments_all_or_nothing_iff plainConfig _ (fun _ => rfl) wholeUpdates).mpr ?_
  refine ⟨?_, fun t ht => ⟨?_, fun t' ht' => ⟨?_, fun _ _ => trivial⟩⟩⟩
  · rintro ⟨key, delta, ttl, hop, -, -, hexpire, -⟩
    exact hexpire rfl
  · rintro ⟨key, delta, ttl, hop, -, -, hexpire, -⟩
    exact hexpire rfl
  · rintro ⟨key, delta, ttl, hop, -, hincrBy, -⟩
    cases hincrBy

/-- The first `EXPIRE` of a counter fails: `Increment` returns an error, and leaves a
counter at one that never expires. -/
theorem expire_failure_leaves_permanent_counter :
    let c : Call := ⟨withoutExpire, 0, .increment (ascii "hits") 1 60000000000⟩
    (c.result plainConfig fun _ => none).2 = .error (.expire (.client 1)) ∧
    (c.result plainConfig fun _ => none).1 (ascii "app:hits") = some ⟨ascii "1", none⟩ :=
  ⟨rfl, by decide +kernel⟩

end Redis
end GoforjCache
