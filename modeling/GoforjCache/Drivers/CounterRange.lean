import GoforjCache.Dynamo.Store
import GoforjCache.File.Store
import GoforjCache.Memory.Store
import GoforjCache.Nats.Store
import GoforjCache.Sql.Store

/-!
# Drivers - Counters at the ends of their range

Five stores keep a counter as the decimal text of a 64-bit integer.  `Increment` reads the
text, adds its delta to the number in machine arithmetic and writes the result back;
`Decrement` is `Increment` of the negated delta.  Neither addition nor negation is
checked.

Main results:

- Theorem `Counter.Adds.exact_iff`: an update in machine arithmetic is exact, or fails without
  effect, if and only if a request is refused or the exact result is a 64-bit integer.
- Theorem `counter_exact_iff_inRange`: this is what the five stores do.
- Theorem `counter_wraps`: the largest number plus one is the smallest number.
-/

namespace GoforjCache
namespace CounterRange

open Foundation Foundation.Decimal

/-! ## Counters in machine arithmetic -/

/-- The counter operations of a store on one key, the value its record was written with, and
whether the backend refuses one of the requests that the operations send. -/
structure Counter (σ : Type) where
  increment : σ → Int64 → σ × Except CacheError Int64
  decrement : σ → Int64 → σ × Except CacheError Int64
  written : σ → Bytes → Prop
  refused : Prop

/-- The numbers of 64 bits. -/
def InRange (n : Int) : Prop := -2 ^ 63 ≤ n ∧ n < 2 ^ 63

instance (n : Int) : Decidable (InRange n) := inferInstanceAs (Decidable (_ ∧ _))

/-- The sum of two machine integers is exact as long as it is in the range. -/
theorem toInt_add_eq_iff (c d : Int64) :
    (c + d).toInt = c.toInt + d.toInt ↔ InRange (c.toInt + d.toInt) := by
  constructor
  · intro h
    rw [← h]
    exact ⟨Int64.le_toInt _, Int64.toInt_lt _⟩
  · intro h
    rw [Int64.toInt_add]
    unfold InRange at h
    apply Int.bmod_eq_of_le <;> omega

/-- The difference of two machine integers, too, although the delta is negated first. -/
theorem toInt_add_neg_eq_iff (c d : Int64) :
    (c + -d).toInt = c.toInt - d.toInt ↔ InRange (c.toInt - d.toInt) := by
  constructor
  · intro h
    rw [← h]
    exact ⟨Int64.le_toInt _, Int64.toInt_lt _⟩
  · intro h
    rw [← Int64.sub_eq_add_neg, Int64.toInt_sub]
    unfold InRange at h
    apply Int.bmod_eq_of_le <;> omega

namespace Counter

variable {σ : Type} (C : Counter σ)

/-- What a caller expects of an update whose exact result is `n`: it returns `n` and
writes its decimal form, or it returns an error and changes nothing. -/
def Exact (s : σ) (n : Int) (r : σ × Except CacheError Int64) : Prop :=
  match r.2 with
  | .ok m => m.toInt = n ∧ C.written r.1 (formatInt m)
  | .error _ => r.1 = s

/-- An update that fails without effect if a request is refused, and stores and returns a number
otherwise. -/
def Ends (s : σ) (m : Int64) (r : σ × Except CacheError Int64) : Prop :=
  (C.refused ∧ ∃ err, r = (s, .error err)) ∨
    (¬C.refused ∧ r.2 = .ok m ∧ C.written r.1 (formatInt m))

/-- In a state with the number `c`, both operations use machine arithmetic. -/
structure Adds (s : σ) (c : Int64) : Prop where
  increment : ∀ d, C.Ends s (c + d) (C.increment s d)
  decrement : ∀ d, C.Ends s (c + -d) (C.decrement s d)

variable {C} {s : σ}

/-- An update that ends with a number is exact if it is refused, or if the number is the right
one. -/
theorem Ends.exact_iff {m : Int64} {n : Int} {r : σ × Except CacheError Int64}
    (h : C.Ends s m r) : C.Exact s n r ↔ C.refused ∨ m.toInt = n := by
  rcases h with ⟨hrefused, err, rfl⟩ | ⟨hsent, hok, hwritten⟩
  · exact ⟨fun _ => Or.inl hrefused, fun _ => rfl⟩
  · unfold Exact
    rw [hok]
    constructor
    · intro hexact
      exact Or.inr hexact.1
    · intro hright
      exact ⟨hright.resolve_left hsent, hwritten⟩

/-- Updates in machine arithmetic are exact if they are refused, or if the exact result is in the
range. -/
theorem Adds.exact_iff {c : Int64} (h : C.Adds s c) (d : Int64) :
    (C.Exact s (c.toInt + d.toInt) (C.increment s d) ↔ C.refused ∨ InRange (c.toInt + d.toInt)) ∧
    (C.Exact s (c.toInt - d.toInt) (C.decrement s d) ↔
      C.refused ∨ InRange (c.toInt - d.toInt)) := by
  constructor
  · rw [(h.increment d).exact_iff, toInt_add_eq_iff]
  · rw [(h.decrement d).exact_iff, toInt_add_neg_eq_iff]

end Counter

/-! ## The five stores -/

section Stores

variable (now : Instant) (key : Key) (ttl : Duration)

/-- `memoryStore`. -/
def memoryCounter (d : DefaultTTL) : Counter Memory.Items where
  increment m delta := Memory.increment d m now key delta ttl
  decrement m delta := Memory.decrement d m now key delta ttl
  written m value := (m key).map Item.value = some value
  refused := False

/-- `fileStore`, with the random part of the temporary file it creates. -/
def fileCounter (cfg : File.Config) (random : Bytes) : Counter File.Dir where
  increment dir delta := File.increment cfg now random dir key delta ttl
  decrement dir delta := File.decrement cfg now random dir key delta ttl
  written dir value := ∃ expiresAt,
    dir.lookup (File.path cfg key) = some (.file (File.recordHeader key expiresAt ++ value))
  refused := False

/-- `sqlStore`. -/
def sqlCounter (cfg : Sql.Config) : Counter Sql.Table where
  increment t delta := Sql.increment cfg now t key delta ttl
  decrement t delta := Sql.decrement cfg now t key delta ttl
  written t value := (t (Sql.cacheKey cfg key)).map Sql.Row.v = some value
  refused := cfg.refuses .select (Sql.cacheKey cfg key) ≠ none ∨
    cfg.refuses .upsert (Sql.cacheKey cfg key) ≠ none

/-- `dynamoStore`. -/
def dynamoCounter (svc : Dynamo.Service) (cfg : Dynamo.Config) : Counter Dynamo.Table where
  increment t delta := Dynamo.increment svc cfg now t key delta ttl
  decrement t delta := Dynamo.decrement svc cfg now t key delta ttl
  written t value := (t (Dynamo.cacheKey cfg key)).bind Dynamo.Attributes.v = some value
  refused := svc.refuses .getItem (Dynamo.cacheKey cfg key) ≠ none ∨
    svc.refuses .putItem (Dynamo.cacheKey cfg key) ≠ none

/-- The store of `natscache`. -/
def natsCounter (cfg : Nats.Config) : Counter Nats.Bucket where
  increment b delta := Nats.increment cfg now b key delta ttl
  decrement b delta := Nats.decrement cfg now b key delta ttl
  written b value := (b (cfg.cacheKey key)).register.value =
    some (Nats.encodeEnvelope cfg.defaultTTL now value ttl)
  refused := cfg.refuses .get (cfg.cacheKey key) ≠ none ∨
    cfg.refuses .update (cfg.cacheKey key) ≠ none

end Stores

/-- A store in a state in which the live value of the key is the number `c`. -/
inductive Stores : {σ : Type} → Counter σ → σ → Int64 → Prop
  | memory {now : Instant} {key : Key} {ttl : Duration} {d : DefaultTTL} {m : Memory.Items}
      {body : Bytes} {c : Int64} (hget : m.get now key = some body)
      (hnumber : parseInt body = some c) : Stores (memoryCounter now key ttl d) m c
  /-- The name of the temporary file is not in use. -/
  | file {now : Instant} {key : Key} {ttl : Duration} {cfg : File.Config} {random : Bytes}
      {dir : File.Dir} {body : Bytes} {c : Int64}
      (hget : File.get cfg now dir key = (dir, .ok (some body)))
      (hnumber : parseInt body = some c)
      (hfresh : dir.lookup (File.tempName random) = none) :
      Stores (fileCounter now key ttl cfg random) dir c
  | sql {now : Instant} {key : Key} {ttl : Duration} {cfg : Sql.Config} {t : Sql.Table}
      {row : Sql.Row} {c : Int64} (hrow : t (Sql.cacheKey cfg key) = some row)
      (hlive : row.expired now = false) (hnumber : parseInt row.v = some c) :
      Stores (sqlCounter now key ttl cfg) t c
  | dynamo {now : Instant} {key : Key} {ttl : Duration} {svc : Dynamo.Service}
      {cfg : Dynamo.Config} {t : Dynamo.Table} {item : Dynamo.Attributes} {body : Bytes}
      {c : Int64} (hitem : t (Dynamo.cacheKey cfg key) = some item)
      (hlive : item.expired now = false) (hv : item.v = some body)
      (hnumber : parseInt body = some c) :
      Stores (dynamoCounter now key ttl svc cfg) t c
  | nats {now : Instant} {key : Key} {ttl : Duration} {cfg : Nats.Config} {b : Nats.Bucket}
      {body : Bytes} {c : Int64} (hvalue : (b (cfg.cacheKey key)).register.value = some body)
      (hnumber : Nats.lookNumber cfg now key body = .number c) :
      Stores (natsCounter now key ttl cfg) b c

section Updates

variable {now : Instant} {key : Key} {ttl : Duration} {c : Int64} {body : Bytes}

theorem memory_ends {d : DefaultTTL} {m : Memory.Items} (hget : m.get now key = some body)
    (hnumber : parseInt body = some c) (delta : Int64) :
    (memoryCounter now key ttl d).Ends m (c + delta) (Memory.increment d m now key delta ttl) := by
  have hread : Memory.readInt64 m now key = .ok c := by
    simp only [Memory.readInt64, hget, hnumber]
  have hincrement : Memory.increment d m now key delta ttl =
      (m.set now key (formatInt (c + delta)) (d.resolve ttl), .ok (c + delta)) := by
    simp only [Memory.increment, hread]
  rw [hincrement]
  refine Or.inr ⟨id, rfl, ?_⟩
  simp [memoryCounter, ExpiringMap.set]

theorem file_ends {cfg : File.Config} {random : Bytes} {dir : File.Dir}
    (hget : File.get cfg now dir key = (dir, .ok (some body))) (hnumber : parseInt body = some c)
    (hfresh : dir.lookup (File.tempName random) = none) (delta : Int64) :
    (fileCounter now key ttl cfg random).Ends dir (c + delta)
      (File.increment cfg now random dir key delta ttl) := by
  have hincrement : File.increment cfg now random dir key delta ttl =
      (File.set cfg now random dir key (formatInt (c + delta)) ttl, .ok (c + delta)) := by
    simp only [File.increment, hget, hnumber]
  have hlookup := File.set_lookup cfg now key (formatInt (c + delta)) ttl hfresh
    (File.path cfg key)
  rw [if_pos rfl] at hlookup
  rw [hincrement]
  exact Or.inr ⟨id, rfl, _, hlookup⟩

theorem sql_ends {cfg : Sql.Config} {t : Sql.Table} {row : Sql.Row}
    (hrow : t (Sql.cacheKey cfg key) = some row) (hlive : row.expired now = false)
    (hnumber : parseInt row.v = some c) (delta : Int64) :
    (sqlCounter now key ttl cfg).Ends t (c + delta) (Sql.increment cfg now t key delta ttl) := by
  have hcurrent : Sql.currentNumber now key (t (Sql.cacheKey cfg key)) = .ok c := by
    rw [hrow]
    simp [Sql.currentNumber, hlive, hnumber]
  unfold Sql.increment Sql.selectRow Sql.upsertRow Sql.Config.statement
  cases hselect : cfg.refuses .select (Sql.cacheKey cfg key) with
  | some err => exact Or.inl ⟨Or.inl (by simp [hselect]), err.passed, rfl⟩
  | none =>
    dsimp only
    rw [hcurrent]
    cases hupsert : cfg.refuses .upsert (Sql.cacheKey cfg key) with
    | some err => exact Or.inl ⟨Or.inr (by simp [hupsert]), err.passed, rfl⟩
    | none =>
      refine Or.inr ⟨by simp [sqlCounter, hselect, hupsert], rfl, ?_⟩
      simp [sqlCounter]

theorem dynamo_ends {svc : Dynamo.Service} {cfg : Dynamo.Config} {t : Dynamo.Table}
    {item : Dynamo.Attributes} (hitem : t (Dynamo.cacheKey cfg key) = some item)
    (hlive : item.expired now = false) (hv : item.v = some body)
    (hnumber : parseInt body = some c) (delta : Int64) :
    (dynamoCounter now key ttl svc cfg).Ends t (c + delta)
      (Dynamo.increment svc cfg now t key delta ttl) := by
  have hcurrent : Dynamo.currentNumber key (some body) = .ok c := by
    simp only [Dynamo.currentNumber, hnumber]
  cases hread : svc.refuses .getItem (Dynamo.cacheKey cfg key) with
  | some err =>
    refine Or.inl ⟨Or.inl (by simp [hread]), err, ?_⟩
    simp only [Dynamo.increment, Dynamo.get, hread]
  | none =>
    have hget : Dynamo.get svc cfg now t key = (t, .ok (some body)) := by
      simp [Dynamo.get, hread, hitem, hlive, hv]
    cases hput : svc.refuses .putItem (Dynamo.cacheKey cfg key) with
    | some err =>
      refine Or.inl ⟨Or.inr (by simp [hput]), err, ?_⟩
      simp only [Dynamo.increment, hget, hcurrent, Dynamo.set, hput]
    | none =>
      simp only [Dynamo.increment, hget, hcurrent, Dynamo.set, hput]
      refine Or.inr ⟨by simp [dynamoCounter, hread, hput], rfl, ?_⟩
      simp [dynamoCounter, Dynamo.setItem]

theorem nats_ends {cfg : Nats.Config} {b : Nats.Bucket}
    (hvalue : (b (cfg.cacheKey key)).register.value = some body)
    (hnumber : Nats.lookNumber cfg now key body = .number c) (delta : Int64) :
    (natsCounter now key ttl cfg).Ends b (c + delta)
      (Nats.increment cfg now b key delta ttl) := by
  have hpos : (b (cfg.cacheKey key)).register.revision ≠ 0 := by
    have hrevision := (b (cfg.cacheKey key)).positive (by rw [hvalue]; exact Option.some_ne_none _)
    omega
  -- the first attempt updates the record at the revision that it has read
  cases hread : cfg.refuses .get (cfg.cacheKey key) with
  | some err =>
    refine Or.inl ⟨Or.inl (by simp [hread]), err, Nats.attempts_of_some cfg ?_ 15⟩
    simp only [Nats.attempt, Nats.kvGet, Nats.Config.request, hread]
  | none =>
    have hget : Nats.kvGet cfg b (cfg.cacheKey key) =
        .ok (some ((b (cfg.cacheKey key)).register.revision, body)) := by
      simp only [Nats.kvGet, Nats.Config.request, hread, hvalue, Option.map_some]
    cases hupdate : cfg.refuses .update (cfg.cacheKey key) with
    | some err =>
      refine Or.inl ⟨Or.inr (by simp [hupdate]), err, Nats.attempts_of_some cfg ?_ 15⟩
      simp only [Nats.attempt, hget, hnumber, Nats.writeNumber, if_neg hpos, Nats.kvUpdate,
        Nats.Config.request, hupdate]
    | none =>
      have hattempt : Nats.attempt cfg now b key delta ttl =
          (cfg.write b (cfg.cacheKey key) (some (Nats.encodeEnvelope cfg.defaultTTL now
            (formatInt (c + delta)) ttl)), some (.ok (c + delta))) := by
        simp only [Nats.attempt, hget, hnumber, Nats.writeNumber, if_neg hpos, Nats.kvUpdate,
          Nats.Config.request, hupdate, if_true]
      unfold Nats.increment
      rw [Nats.attempts_of_some cfg hattempt 15]
      exact Or.inr ⟨by simp [natsCounter, hread, hupdate], rfl, cfg.value_write b _ _⟩

end Updates

/-- Every one of the five stores uses machine arithmetic. -/
theorem Stores.adds {σ : Type} {C : Counter σ} {s : σ} {c : Int64} (h : Stores C s c) :
    C.Adds s c := by
  cases h with
  | memory hget hnumber =>
    exact ⟨memory_ends hget hnumber, fun d => memory_ends hget hnumber (-d)⟩
  | file hget hnumber hfresh =>
    exact ⟨file_ends hget hnumber hfresh, fun d => file_ends hget hnumber hfresh (-d)⟩
  | sql hrow hlive hnumber =>
    exact ⟨sql_ends hrow hlive hnumber, fun d => sql_ends hrow hlive hnumber (-d)⟩
  | dynamo hitem hlive hv hnumber =>
    exact ⟨dynamo_ends hitem hlive hv hnumber, fun d => dynamo_ends hitem hlive hv hnumber (-d)⟩
  | nats hvalue hnumber =>
    exact ⟨nats_ends hvalue hnumber, fun d => nats_ends hvalue hnumber (-d)⟩

/--
Counters wrap at the ends of their range and nowhere else.  Take any of the five stores in a state
in which the live value of a key is the number `c`, and any delta `d`.
`Increment` returns exactly `c + d` and writes its decimal form, or returns an error and
changes nothing, if and only if the database, the service or the bucket refuses one of its requests
or `c + d` is a 64-bit integer; and `Decrement` does so for `c - d`.  The memory store and the file
store send no requests.
-/
theorem counter_exact_iff_inRange {σ : Type} {C : Counter σ} {s : σ} {c : Int64}
    (h : Stores C s c) (d : Int64) :
    (C.Exact s (c.toInt + d.toInt) (C.increment s d) ↔ C.refused ∨ InRange (c.toInt + d.toInt)) ∧
    (C.Exact s (c.toInt - d.toInt) (C.decrement s d) ↔ C.refused ∨ InRange (c.toInt - d.toInt)) :=
  h.adds.exact_iff d

/-- A counter in the memory store, without expiration. -/
def counterAt (c : Int64) : Memory.Items :=
  Function.update (fun _ => none) (ascii "hits") (some ⟨formatInt c, 0⟩)

/-- The operations on that counter. -/
def sampleCounter : Counter Memory.Items :=
  memoryCounter 0 (ascii "hits") 60000000000 (DefaultTTL.normalize 0)

theorem stores_counterAt (c : Int64) : Stores sampleCounter (counterAt c) c := by
  apply Stores.memory _ (parseInt_formatInt c)
  simp [counterAt, ExpiringMap.get, ExpiringMap.expired]

/-- Forty plus two, and forty minus two. -/
theorem counter_exact_forty :
    sampleCounter.Exact (counterAt 40) 42 (sampleCounter.increment (counterAt 40) 2) ∧
    sampleCounter.Exact (counterAt 40) 38 (sampleCounter.decrement (counterAt 40) 2) := by
  have h := counter_exact_iff_inRange (stores_counterAt 40) 2
  exact ⟨h.1.mpr (Or.inr (by decide)), h.2.mpr (Or.inr (by decide))⟩

/-- A full counter becomes the smallest number, without an error, and so does an empty one from
which the smallest number is taken. -/
theorem counter_wraps :
    Stores sampleCounter (counterAt 9223372036854775807) 9223372036854775807 ∧
    (sampleCounter.increment (counterAt 9223372036854775807) 1).2 = .ok (-9223372036854775808) ∧
    sampleCounter.written (sampleCounter.increment (counterAt 9223372036854775807) 1).1
      (ascii "-9223372036854775808") ∧
    Stores sampleCounter (counterAt 0) 0 ∧
    (sampleCounter.decrement (counterAt 0) (-9223372036854775808)).2 = .ok (-9223372036854775808) :=
  ⟨stores_counterAt _, by decide +kernel, by unfold sampleCounter memoryCounter; decide +kernel,
    stores_counterAt _, by decide +kernel⟩

end CounterRange
end GoforjCache
