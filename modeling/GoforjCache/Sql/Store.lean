import GoforjCache.Core.Types
import GoforjCache.Foundation.Decimal
import GoforjCache.Foundation.Noninterference
import GoforjCache.Nats.Envelope
import Mathlib.Data.List.Infix

/-!
# SQL - The table and the store over it

The table of the SQL store has rows `(k, v, ea)`: the key with its prefix, the value, and
the expiration in milliseconds.  Every operation is a short sequence of statements, and each
statement is atomic.  The database may refuse a statement for its key, as a column of limited
length or a text encoding does; which keys it refuses is a parameter.

Main results:

- Theorem `exec_local`: a call reads and writes only the rows of its own keys.
-/

namespace GoforjCache
namespace Sql

open Function Foundation
open Nats (millis unixMilli)

/-! ## The table -/

/-- The names of database drivers that the store tells apart; every other name is handled like
SQLite. -/
inductive DriverName where
  | postgres
  | pgx
  | mysql
  | sqlite
deriving DecidableEq, Repr

/-- A row without its key. -/
structure Row where
  v : Bytes
  ea : Int64
deriving DecidableEq, Repr

/-- The table, by the full text of the key. -/
abbrev Table := Key → Option Row

/-- An error of the database driver: a number to tell errors apart, and the text that
`isDuplicateErr` looks at. -/
structure DriverError where
  code : Nat
  message : Bytes
deriving DecidableEq, Repr

/-- The store passes other errors of the driver on. -/
def DriverError.passed (err : DriverError) : CacheError := .external err.code

/-- `isDuplicateErr`. -/
def isDuplicateErr (message : Bytes) : DriverName → Bool
  | .postgres | .pgx => decide (ascii "duplicate key value" <:+: message)
  | .mysql => decide (ascii "Duplicate entry" <:+: message)
  | .sqlite =>
    decide (ascii "UNIQUE constraint failed" <:+: message) ||
      decide (ascii "unique constraint" <:+: message)

/-- The kinds of statements the store sends. -/
inductive Statement where
  | select
  | upsert
  | insert
  | reuse
  | delete
deriving DecidableEq, Repr

/-- What is fixed: the fields of `sqlStore`, the statements that the database refuses for
their key, and the error it reports for a key that exists. -/
structure Config where
  driverName : DriverName
  keyPrefix : Bytes
  defaultTTL : DefaultTTL
  refuses : Statement → Key → Option DriverError
  duplicate : DriverError
  duplicate_recognised : isDuplicateErr duplicate.message driverName = true

/-- A store with the default lifetime, on a SQLite database that takes every key. -/
def Config.sqlite (keyPrefix : Bytes) : Config where
  driverName := .sqlite
  keyPrefix := keyPrefix
  defaultTTL := DefaultTTL.normalize 0
  refuses := fun _ _ => none
  duplicate := ⟨1, ascii "UNIQUE constraint failed"⟩
  duplicate_recognised := by decide

/-- `sqlStore.cacheKey`. -/
def cacheKey (cfg : Config) (key : Key) : Key :=
  if cfg.keyPrefix = [] then key else cfg.keyPrefix ++ ascii ":" ++ key

/-- Different keys have different full texts. -/
theorem cacheKey_injective (cfg : Config) : Injective (cacheKey cfg) := by
  intro key key' h
  unfold cacheKey at h
  split at h
  · exact h
  · exact List.append_cancel_left h

/-! ## Statements -/

/-- A statement is refused, or has its effect. -/
def Config.statement {α : Type} (cfg : Config) (st : Statement) (k : Key) (effect : α) :
    Except DriverError α :=
  match cfg.refuses st k with
  | some err => .error err
  | none => .ok effect

/-- `getSQL`. -/
def selectRow (cfg : Config) (t : Table) (k : Key) : Except DriverError (Option Row) :=
  cfg.statement .select k (t k)

/-- `upsertSQL`. -/
def upsertRow (cfg : Config) (t : Table) (k : Key) (row : Row) : Except DriverError Table :=
  cfg.statement .upsert k (update t k (some row))

/-- `addInsertSQL`: a key that exists makes it fail. -/
def insertRow (cfg : Config) (t : Table) (k : Key) (row : Row) : Except DriverError Table :=
  match cfg.refuses .insert k, t k with
  | some err, _ => .error err
  | none, some _ => .error cfg.duplicate
  | none, none => .ok (update t k (some row))

/-- `addReuseExpiredSQL`, with the number of rows it changed. -/
def reuseExpiredRow (cfg : Config) (t : Table) (k : Key) (row : Row) (nowMs : Int64) :
    Except DriverError (Table × Nat) :=
  cfg.statement .reuse k <|
    match t k with
    | some old => if old.ea < nowMs then (update t k (some row), 1) else (t, 0)
    | none => (t, 0)

/-- `deleteSQL`, and the statement of `DeleteMany` for each of its keys. -/
def deleteRow (cfg : Config) (t : Table) (k : Key) : Except DriverError Table :=
  cfg.statement .delete k (update t k none)

/-- The statement of `LockRelease`, with the number of rows it removed. -/
def deleteOwnedRow (cfg : Config) (t : Table) (k : Key) (owner : Bytes) :
    Except DriverError (Table × Nat) :=
  cfg.statement .delete k <|
    match t k with
    | some row => if row.v = owner then (update t k none, 1) else (t, 0)
    | none => (t, 0)

variable {cfg : Config} {k : Key} {t t' : Table}

/-- A statement that is not refused has its effect. -/
theorem statement_eq_ok {α : Type} {st : Statement} {effect a : α}
    (h : cfg.statement st k effect = .ok a) : a = effect := by
  unfold Config.statement at h
  split at h
  · cases h
  · exact (Except.ok.inj h).symm

theorem insertRow_eq_ok {row : Row} (h : insertRow cfg t k row = .ok t') :
    t k = none ∧ t' = update t k (some row) := by
  unfold insertRow at h
  split at h
  · cases h
  · cases h
  · rename_i hnone
    exact ⟨hnone, (Except.ok.inj h).symm⟩

/-- The update of an expired row changes nothing, or one row that had expired. -/
theorem reuseExpiredRow_eq_ok {row : Row} {nowMs : Int64} {rows : Nat}
    (h : reuseExpiredRow cfg t k row nowMs = .ok (t', rows)) :
    (rows = 0 ∧ t' = t) ∨
      (rows = 1 ∧ t' = update t k (some row) ∧ ∃ old, t k = some old ∧ old.ea < nowMs) := by
  have heffect := statement_eq_ok h
  split at heffect
  · rename_i old hold
    split at heffect <;> rcases Prod.mk.inj heffect with ⟨rfl, rfl⟩
    · rename_i hexpired
      exact Or.inr ⟨rfl, rfl, old, hold, hexpired⟩
    · exact Or.inl ⟨rfl, rfl⟩
  · rcases Prod.mk.inj heffect with ⟨rfl, rfl⟩
    exact Or.inl ⟨rfl, rfl⟩

/-- The statement of a release removes nothing, or one row of the owner. -/
theorem deleteOwnedRow_eq_ok {owner : Bytes} {rows : Nat}
    (h : deleteOwnedRow cfg t k owner = .ok (t', rows)) :
    (rows = 0 ∧ t' = t) ∨
      (rows = 1 ∧ t' = update t k none ∧ ∃ row, t k = some row ∧ row.v = owner) := by
  have heffect := statement_eq_ok h
  split at heffect
  · rename_i row hrow
    split at heffect <;> rcases Prod.mk.inj heffect with ⟨rfl, rfl⟩
    · rename_i howner
      exact Or.inr ⟨rfl, rfl, row, hrow, howner⟩
    · exact Or.inl ⟨rfl, rfl⟩
  · rcases Prod.mk.inj heffect with ⟨rfl, rfl⟩
    exact Or.inl ⟨rfl, rfl⟩

/-! ## Operations -/

/-- The expiration that `Set` and `Increment` write. -/
def setExpiry (cfg : Config) (now : Instant) (ttl : Duration) : Int64 :=
  unixMilli (now + (cfg.defaultTTL.resolve ttl).toInt)

/-- The expiration that `Add` writes, from its own reading of the clock in whole
milliseconds. -/
def addExpiry (cfg : Config) (nowMs : Int64) (ttl : Duration) : Int64 :=
  unixMilli (nowMs.toInt * 1000000 + (cfg.defaultTTL.resolve ttl).toInt)

/-- The condition under which a row counts as expired. -/
def Row.expired (row : Row) (now : Instant) : Bool := decide (row.ea < unixMilli now)

/-- `sqlStore.Delete`. -/
def delete (cfg : Config) (t : Table) (key : Key) : Table × Option CacheError :=
  match deleteRow cfg t (cacheKey cfg key) with
  | .error err => (t, some err.passed)
  | .ok t' => (t', none)

/-- `sqlStore.Get`. -/
def get (cfg : Config) (now : Instant) (t : Table) (key : Key) :
    Table × Except CacheError (Option Bytes) :=
  match selectRow cfg t (cacheKey cfg key) with
  | .error err => (t, .error err.passed)
  | .ok none => (t, .ok none)
  | .ok (some row) =>
    -- the error of the removal is dropped
    if row.expired now then ((delete cfg t key).1, .ok none) else (t, .ok (some row.v))

/-- `sqlStore.Set`. -/
def set (cfg : Config) (now : Instant) (t : Table) (key : Key) (value : Bytes) (ttl : Duration) :
    Table × Option CacheError :=
  match upsertRow cfg t (cacheKey cfg key) ⟨value, setExpiry cfg now ttl⟩ with
  | .error err => (t, some err.passed)
  | .ok t' => (t', none)

/-- The second statement of `Add`, for a key that exists. -/
def addReuse (cfg : Config) (t : Table) (k : Key) (row : Row) (nowMs : Int64) :
    Table × Except CacheError Bool :=
  match reuseExpiredRow cfg t k row nowMs with
  | .error err => (t, .error err.passed)
  | .ok (t', rows) => (t', .ok (decide (0 < rows)))

/-- `sqlStore.Add`. -/
def add (cfg : Config) (now : Instant) (t : Table) (key : Key) (value : Bytes) (ttl : Duration) :
    Table × Except CacheError Bool :=
  let nowMs := unixMilli now
  let row : Row := ⟨value, addExpiry cfg nowMs ttl⟩
  let k := cacheKey cfg key
  match insertRow cfg t k row with
  | .ok t' => (t', .ok true)
  | .error err =>
    if isDuplicateErr err.message cfg.driverName then addReuse cfg t k row nowMs
    else (t, .error err.passed)

/-- `sqlStore.LockAcquire`. -/
def lockAcquire (cfg : Config) (now : Instant) (t : Table) (key : Key) (owner : Bytes)
    (ttl : Duration) : Table × Except CacheError Bool :=
  add cfg now t key owner ttl

/-- `sqlStore.LockRelease`. -/
def lockRelease (cfg : Config) (t : Table) (key : Key) (owner : Bytes) :
    Table × Except CacheError Bool :=
  match deleteOwnedRow cfg t (cacheKey cfg key) owner with
  | .error err => (t, .error err.passed)
  | .ok (t', rows) => (t', .ok (decide (0 < rows)))

/-- The number that `Increment` starts from: zero without a row or for an expired one. -/
def currentNumber (now : Instant) (key : Key) : Option Row → Except CacheError Int64
  | none => .ok 0
  | some row =>
    if row.expired now then .ok 0
    else
      match Decimal.parseInt row.v with
      | some n => .ok n
      | none => .error (.notNumeric key)

/-- `sqlStore.Increment`, run without interruption. -/
def increment (cfg : Config) (now : Instant) (t : Table) (key : Key) (delta : Int64)
    (ttl : Duration) : Table × Except CacheError Int64 :=
  match selectRow cfg t (cacheKey cfg key) with
  | .error err => (t, .error err.passed)
  | .ok found =>
    match currentNumber now key found with
    | .error err => (t, .error err)
    | .ok current =>
      let next := current + delta
      match upsertRow cfg t (cacheKey cfg key)
          ⟨Decimal.formatInt next, setExpiry cfg now ttl⟩ with
      | .error err => (t, .error err.passed)
      | .ok t' => (t', .ok next)

/-- `sqlStore.Decrement`. -/
def decrement (cfg : Config) (now : Instant) (t : Table) (key : Key) (delta : Int64)
    (ttl : Duration) : Table × Except CacheError Int64 :=
  increment cfg now t key (-delta) ttl

/-- `sqlStore.DeleteMany`: one statement for all keys, and none for no keys. -/
def deleteMany (cfg : Config) (t : Table) (keys : List Key) : Table × Option CacheError :=
  let ks := keys.map (cacheKey cfg)
  match ks.findSome? (cfg.refuses .delete) with
  | some err => (t, some err.passed)
  | none => (fun k => if k ∈ ks then none else t k, none)

/-- `sqlStore.Flush`: the statement has no condition. -/
def flush : Table := fun _ => none

/-- Any operation of the contract, at one instant. -/
def exec (cfg : Config) (now : Instant) (t : Table) : Op → Table × Res
  | .get key => let r := get cfg now t key; (r.1, Res.ofExcept .value r.2)
  | .set key value ttl => let r := set cfg now t key value ttl; (r.1, Res.ofError r.2)
  | .add key value ttl => let r := add cfg now t key value ttl; (r.1, Res.ofExcept .flag r.2)
  | .increment key delta ttl =>
    let r := increment cfg now t key delta ttl; (r.1, Res.ofExcept .number r.2)
  | .decrement key delta ttl =>
    let r := decrement cfg now t key delta ttl; (r.1, Res.ofExcept .number r.2)
  | .delete key => let r := delete cfg t key; (r.1, Res.ofError r.2)
  | .deleteMany keys => let r := deleteMany cfg t keys; (r.1, Res.ofError r.2)
  | .flush => (flush, .done)
  | .lockAcquire key owner ttl =>
    let r := lockAcquire cfg now t key owner ttl; (r.1, Res.ofExcept .flag r.2)
  | .lockRelease key owner => let r := lockRelease cfg t key owner; (r.1, Res.ofExcept .flag r.2)

/-! ## What a call reads and writes -/

section Locality

open Noninterference

variable {cfg : Config} {now : Instant} {F : Key → Prop} {key : Key}

theorem local_delete (hk : F (cacheKey cfg key)) : Local F fun t => delete cfg t key := by
  cases hrefuses : cfg.refuses .delete (cacheKey cfg key) with
  | some err =>
    simp only [delete, deleteRow, Config.statement, hrefuses]
    exact local_const F _
  | none =>
    simp only [delete, deleteRow, Config.statement, hrefuses]
    exact local_update hk _ _

theorem local_get (hk : F (cacheKey cfg key)) : Local F fun t => get cfg now t key := by
  refine local_of_entry hk fun found => ?_
  cases hrefuses : cfg.refuses .select (cacheKey cfg key) with
  | some err =>
    refine ⟨_, local_const F (.error err.passed), fun t _ => ?_⟩
    simp only [get, selectRow, Config.statement, hrefuses]
  | none =>
    cases found with
    | none =>
      refine ⟨_, local_const F (.ok none), fun t ht => ?_⟩
      simp only [get, selectRow, Config.statement, hrefuses, ht]
    | some row =>
      by_cases hexpired : row.expired now = true
      · refine ⟨_, (local_delete hk).map fun _ => .ok none, fun t ht => ?_⟩
        simp only [get, selectRow, Config.statement, hrefuses, ht, hexpired, if_true]
      · refine ⟨_, local_const F (.ok (some row.v)), fun t ht => ?_⟩
        simp only [get, selectRow, Config.statement, hrefuses, ht, if_neg hexpired]

theorem local_set (hk : F (cacheKey cfg key)) (value : Bytes) (ttl : Duration) :
    Local F fun t => set cfg now t key value ttl := by
  cases hrefuses : cfg.refuses .upsert (cacheKey cfg key) with
  | some err =>
    simp only [set, upsertRow, Config.statement, hrefuses]
    exact local_const F _
  | none =>
    simp only [set, upsertRow, Config.statement, hrefuses]
    exact local_update hk _ _

theorem local_addReuse {k : Key} (hk : F k) (row : Row) (nowMs : Int64) :
    Local F fun t => addReuse cfg t k row nowMs := by
  refine local_of_entry hk fun found => ?_
  cases hrefuses : cfg.refuses .reuse k with
  | some err =>
    refine ⟨_, local_const F (.error err.passed), fun t _ => ?_⟩
    simp only [addReuse, reuseExpiredRow, Config.statement, hrefuses]
  | none =>
    cases found with
    | none =>
      refine ⟨_, local_const F (.ok false), fun t ht => ?_⟩
      simp [addReuse, reuseExpiredRow, Config.statement, hrefuses, ht]
    | some old =>
      by_cases hexpired : old.ea < nowMs
      · refine ⟨_, local_update hk (some row) (.ok true), fun t ht => ?_⟩
        simp [addReuse, reuseExpiredRow, Config.statement, hrefuses, ht, hexpired]
      · refine ⟨_, local_const F (.ok false), fun t ht => ?_⟩
        simp [addReuse, reuseExpiredRow, Config.statement, hrefuses, ht, hexpired]

/-- An insert is refused for the key, or for the row that it finds, or has its effect. -/
theorem local_add (hk : F (cacheKey cfg key)) (value : Bytes) (ttl : Duration) :
    Local F fun t => add cfg now t key value ttl := by
  have hfailed : ∀ err : DriverError, Local F fun t : Table =>
      if isDuplicateErr err.message cfg.driverName then
        addReuse cfg t (cacheKey cfg key) ⟨value, addExpiry cfg (unixMilli now) ttl⟩ (unixMilli now)
      else (t, .error err.passed) := by
    intro err
    split
    · exact local_addReuse hk _ _
    · exact local_const F _
  refine local_of_entry hk fun found => ?_
  cases hrefuses : cfg.refuses .insert (cacheKey cfg key) with
  | some err =>
    refine ⟨_, hfailed err, fun t _ => ?_⟩
    simp only [add, insertRow, hrefuses]
  | none =>
    cases found with
    | some old =>
      refine ⟨_, hfailed cfg.duplicate, fun t ht => ?_⟩
      simp only [add, insertRow, hrefuses, ht]
    | none =>
      let row : Row := ⟨value, addExpiry cfg (unixMilli now) ttl⟩
      refine ⟨_, local_update hk (some row) (.ok true), fun t ht => ?_⟩
      simp only [add, insertRow, hrefuses, ht, row]

theorem local_lockRelease (hk : F (cacheKey cfg key)) (owner : Bytes) :
    Local F fun t => lockRelease cfg t key owner := by
  refine local_of_entry hk fun found => ?_
  cases hrefuses : cfg.refuses .delete (cacheKey cfg key) with
  | some err =>
    refine ⟨_, local_const F (.error err.passed), fun t _ => ?_⟩
    simp only [lockRelease, deleteOwnedRow, Config.statement, hrefuses]
  | none =>
    cases found with
    | none =>
      refine ⟨_, local_const F (.ok false), fun t ht => ?_⟩
      simp [lockRelease, deleteOwnedRow, Config.statement, hrefuses, ht]
    | some row =>
      by_cases howner : row.v = owner
      · refine ⟨_, local_update hk none (.ok true), fun t ht => ?_⟩
        simp [lockRelease, deleteOwnedRow, Config.statement, hrefuses, ht, howner]
      · refine ⟨_, local_const F (.ok false), fun t ht => ?_⟩
        simp [lockRelease, deleteOwnedRow, Config.statement, hrefuses, ht, howner]

theorem local_increment (hk : F (cacheKey cfg key)) (delta : Int64) (ttl : Duration) :
    Local F fun t => increment cfg now t key delta ttl := by
  refine local_of_entry hk fun found => ?_
  cases hselect : cfg.refuses .select (cacheKey cfg key) with
  | some err =>
    refine ⟨_, local_const F (.error err.passed), fun t _ => ?_⟩
    simp only [increment, selectRow, Config.statement, hselect]
  | none =>
    cases hcurrent : currentNumber now key found with
    | error err =>
      refine ⟨_, local_const F (.error err), fun t ht => ?_⟩
      simp only [increment, selectRow, Config.statement, hselect, ht, hcurrent]
    | ok current =>
      cases hupsert : cfg.refuses .upsert (cacheKey cfg key) with
      | some err =>
        refine ⟨_, local_const F (.error err.passed), fun t ht => ?_⟩
        simp only [increment, selectRow, upsertRow, Config.statement, hselect, ht, hcurrent,
          hupsert]
      | none =>
        let row : Row := ⟨Decimal.formatInt (current + delta), setExpiry cfg now ttl⟩
        refine ⟨_, local_update hk (some row) (.ok (current + delta)), fun t ht => ?_⟩
        simp only [increment, selectRow, upsertRow, Config.statement, hselect, ht, hcurrent,
          hupsert, row]

theorem local_deleteMany {keys : List Key} (hkeys : ∀ key ∈ keys, F (cacheKey cfg key)) :
    Local F fun t => deleteMany cfg t keys := by
  unfold deleteMany
  dsimp only
  split
  · exact local_const F _
  · refine local_fill ?_ _ _
    intro k hk
    rcases List.mem_map.mp hk with ⟨key, hkey, rfl⟩
    exact hkeys key hkey

/-- A call other than `Flush` reads and writes only the rows of its own keys. -/
theorem exec_local {op : Op} (hop : op ≠ .flush)
    (hkeys : ∀ key ∈ op.keys.getD [], F (cacheKey cfg key)) :
    Local F fun t => exec cfg now t op := by
  cases op with
  | get key => exact (local_get (hkeys key List.mem_cons_self)).map _
  | set key value ttl => exact (local_set (hkeys key List.mem_cons_self) value ttl).map _
  | add key value ttl => exact (local_add (hkeys key List.mem_cons_self) value ttl).map _
  | increment key delta ttl =>
    exact (local_increment (hkeys key List.mem_cons_self) delta ttl).map _
  | decrement key delta ttl =>
    exact (local_increment (hkeys key List.mem_cons_self) (-delta) ttl).map _
  | delete key => exact (local_delete (hkeys key List.mem_cons_self)).map _
  | deleteMany keys => exact (local_deleteMany hkeys).map _
  | flush => exact absurd rfl hop
  | lockAcquire key owner ttl => exact (local_add (hkeys key List.mem_cons_self) owner ttl).map _
  | lockRelease key owner => exact (local_lockRelease (hkeys key List.mem_cons_self) owner).map _

end Locality

end Sql
end GoforjCache
