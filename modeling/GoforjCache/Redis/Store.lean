import GoforjCache.Core.Types
import GoforjCache.Foundation.Decimal
import GoforjCache.Foundation.Noninterference
import GoforjCache.Nats.Envelope

/-!
# Redis - The keyspace and the store over it

The store sends single commands to a Redis server, and each command is atomic.  A command may fail
without an effect; which ones do is a parameter of a call.  The server measures lifetimes in
milliseconds.  The client sends the lifetime of `SET` in milliseconds and that of
`EXPIRE` in whole seconds, and never less than one of them.

Main results:

- Theorem `exec_local`: a call reads and writes only the entries of its own keys.
-/

namespace GoforjCache
namespace Redis

open Foundation Noninterference
open Nats (millis)

/-! ## The keyspace -/

/-- A string with the millisecond up to which it exists. -/
structure Entry where
  value : Bytes
  expires : Option Int
deriving DecidableEq, Repr

/-- The keyspace, by the full text of the key. -/
abbrev Keyspace := Key → Option Entry

/-- The entry still exists. -/
def Entry.live (now : Instant) (e : Entry) : Bool :=
  match e.expires with
  | some deadline => decide (millis now ≤ deadline)
  | none => true

/-- The entry of a key, if it still exists. -/
def Keyspace.find (t : Keyspace) (now : Instant) (k : Key) : Option Entry :=
  (t k).filter (Entry.live now)

/-- The lifetime of `SET`, in milliseconds. -/
def setMillis (ttl : Duration) : Int := max 1 (ttl.toInt / 1000000)

/-- The lifetime of `EXPIRE`, in milliseconds. -/
def expireMillis (ttl : Duration) : Int := max 1 (ttl.toInt / 1000000000) * 1000

/-- The errors of the store. -/
inductive RedisError where
  /-- `redis cache client unavailable`. -/
  | unavailable
  /-- `errLockScriptsRequired`. -/
  | lockScriptsRequired
  /-- An error of the client. -/
  | client (code : Nat)
  /-- The reply of the server to `INCRBY` on a value that is not a 64-bit number. -/
  | notInteger
  /-- The reply of the server to `INCRBY` when the sum is not a 64-bit number. -/
  | overflow
  /-- `expire cache key: %w`. -/
  | expire (cause : RedisError)
deriving DecidableEq, Repr

/-- The kinds of commands the store sends. -/
inductive Command where
  | get
  | set
  | setNX
  | incrBy
  | expire
  | del
  | eval
deriving DecidableEq, Repr

/-- One page of `SCAN`: an error of the client, or keys and the error of the `DEL` that
`Flush` sends for them. -/
inductive Page where
  | failed (code : Nat)
  | keys (ks : List Key) (refused : Option Nat)
deriving DecidableEq, Repr

/-- How the server behaves during one call of the store: the commands that fail, and the pages of a
full iteration of `SCAN`. -/
structure Service where
  refuses : Command → Option Nat
  pages : List Page

/-- A server that does everything it is asked for. -/
def Service.willing : Service := ⟨fun _ => none, []⟩

/-- What a command or a call does with the keyspace. -/
abbrev Effect (α : Type) := Keyspace → Keyspace × Except RedisError α

section Effects

variable {α β : Type}

/-- A second effect, unless the first one fails. -/
def Effect.andThen (f : Effect α) (g : α → Effect β) : Effect β := fun t =>
  match f t with
  | (t', .error err) => (t', .error err)
  | (t', .ok a) => g a t'

/-- The same effect with another result. -/
def Effect.map (f : Effect α) (g : α → β) : Effect β := fun t => ((f t).1, (f t).2.map g)

/-- The same effect with another error. -/
def Effect.mapError (f : Effect α) (g : RedisError → RedisError) : Effect α :=
  fun t => ((f t).1, (f t).2.mapError g)

/-- A command fails, or has its effect. -/
def Service.command (svc : Service) (c : Command) (effect : Effect α) : Effect α :=
  match svc.refuses c with
  | some code => fun t => (t, .error (.client code))
  | none => effect

/-- A command on one key: the entry that it finds decides what it leaves there and what it replies.
The server drops an entry that no longer exists when a command comes across it. -/
def onKey (now : Instant) (k : Key) (f : Option Entry → Option Entry × Except RedisError α) :
    Effect α :=
  fun t => (Function.update t k (f (t.find now k)).1, (f (t.find now k)).2)

end Effects

/-- `GET`. -/
def getCommand (now : Instant) (k : Key) : Effect (Option Bytes) :=
  onKey now k fun found => (found, .ok (found.map Entry.value))

/-- The entry that `SET` with a lifetime writes. -/
def setEntry (now : Instant) (value : Bytes) (ttl : Duration) : Entry :=
  ⟨value, some (millis now + setMillis ttl)⟩

/-- `SET` with a lifetime. -/
def setCommand (now : Instant) (k : Key) (value : Bytes) (ttl : Duration) : Effect Unit :=
  onKey now k fun _ => (some (setEntry now value ttl), .ok ())

/-- `SET` with a lifetime, for a key without an entry. -/
def setNXCommand (now : Instant) (k : Key) (value : Bytes) (ttl : Duration) : Effect Bool :=
  onKey now k fun
    | some e => (some e, .ok false)
    | none => (some (setEntry now value ttl), .ok true)

/-- The number in a value: digits as the server writes them. -/
def storedInt (value : Bytes) : Option Int64 :=
  match Decimal.parseInt value with
  | some n => if Decimal.formatInt n = value then some n else none
  | none => none

/-- `INCRBY`: it keeps the lifetime of the entry, and a new entry has none. -/
def incrByCommand (now : Instant) (k : Key) (delta : Int64) : Effect Int64 :=
  onKey now k fun
    | none => (some ⟨Decimal.formatInt delta, none⟩, .ok delta)
    | some e =>
      match storedInt e.value with
      | none => (some e, .error .notInteger)
      | some n =>
        if (n + delta).toInt = n.toInt + delta.toInt then
          (some ⟨Decimal.formatInt (n + delta), e.expires⟩, .ok (n + delta))
        else (some e, .error .overflow)

/-- `EXPIRE`. -/
def expireCommand (now : Instant) (k : Key) (ttl : Duration) : Effect Bool :=
  onKey now k fun
    | none => (none, .ok false)
    | some e => (some { e with expires := some (millis now + expireMillis ttl) }, .ok true)

/-- `DEL`. -/
def delCommand (ks : List Key) : Effect Unit :=
  fun t => (fun k => if k ∈ ks then none else t k, .ok ())

/-- `releaseLockScript`. -/
def releaseScript (now : Instant) (k : Key) (owner : Bytes) : Effect Bool :=
  onKey now k fun
    | none => (none, .ok false)
    | some e => if e.value = owner then (none, .ok true) else (some e, .ok false)

/-! ## Operations -/

/-- The client of a store: none, one without scripts, or one with `Eval`. -/
inductive Client where
  | missing
  | plain
  | scripted
deriving DecidableEq, Repr

/-- The fields of `store`. -/
structure Config where
  client : Client
  keyPrefix : Bytes
  defaultTTL : DefaultTTL

/-- `New`: an empty prefix and a nonpositive lifetime are replaced. -/
def Config.new (client : Client) (keyPrefix : Bytes) (ttl : Duration) : Config :=
  ⟨client, if keyPrefix = [] then ascii "app" else keyPrefix, DefaultTTL.normalize ttl⟩

/-- `store.cacheKey`. -/
def cacheKey (cfg : Config) (key : Key) : Key := cfg.keyPrefix ++ ascii ":" ++ key

/-- Every call starts with a check for the client. -/
def Config.withClient {α : Type} (cfg : Config) (f : Effect α) : Effect α :=
  match cfg.client with
  | .missing => fun t => (t, .error .unavailable)
  | _ => f

/-- The calls for locks need a client with scripts. -/
def Config.withScripts {α : Type} (cfg : Config) (f : Effect α) : Effect α :=
  match cfg.client with
  | .missing => fun t => (t, .error .unavailable)
  | .plain => fun t => (t, .error .lockScriptsRequired)
  | .scripted => f

variable (svc : Service) (cfg : Config) (now : Instant)

/-- `store.Get`; the miss `redis.Nil` is not an error. -/
def get (key : Key) : Effect (Option Bytes) :=
  cfg.withClient (svc.command .get (getCommand now (cacheKey cfg key)))

/-- `store.Set`. -/
def set (key : Key) (value : Bytes) (ttl : Duration) : Effect Unit :=
  cfg.withClient
    (svc.command .set (setCommand now (cacheKey cfg key) value (cfg.defaultTTL.resolve ttl)))

/-- `store.Add`. -/
def add (key : Key) (value : Bytes) (ttl : Duration) : Effect Bool :=
  cfg.withClient
    (svc.command .setNX (setNXCommand now (cacheKey cfg key) value (cfg.defaultTTL.resolve ttl)))

/-- `store.LockAcquire`. -/
def lockAcquire (key : Key) (owner : Bytes) (ttl : Duration) : Effect Bool :=
  cfg.withScripts (add svc cfg now key owner ttl)

/-- `store.LockRelease`. -/
def lockRelease (key : Key) (owner : Bytes) : Effect Bool :=
  cfg.withScripts (svc.command .eval (releaseScript now (cacheKey cfg key) owner))

/-- `store.Increment`, run without interruption.  The resolved lifetime is positive, so the
second command is always sent. -/
def increment (key : Key) (delta : Int64) (ttl : Duration) : Effect Int64 :=
  cfg.withClient <|
    (svc.command .incrBy (incrByCommand now (cacheKey cfg key) delta)).andThen fun value =>
      ((svc.command .expire
        (expireCommand now (cacheKey cfg key) (cfg.defaultTTL.resolve ttl))).mapError .expire).map
          fun _ => value

/-- `store.Decrement`. -/
def decrement (key : Key) (delta : Int64) (ttl : Duration) : Effect Int64 :=
  increment svc cfg now key (-delta) ttl

/-- `store.Delete`. -/
def delete (key : Key) : Effect Unit :=
  cfg.withClient (svc.command .del (delCommand [cacheKey cfg key]))

/-- `store.DeleteMany`: one command for all keys, and none for no keys. -/
def deleteMany (keys : List Key) : Effect Unit :=
  cfg.withClient <|
    if keys = [] then fun t => (t, .ok ())
    else svc.command .del (delCommand (keys.map (cacheKey cfg)))

/-- The loop of `Flush` over the pages of the iteration. -/
def flushPages : List Page → Effect Unit
  | [] => fun t => (t, .ok ())
  | .failed code :: _ => fun t => (t, .error (.client code))
  | .keys ks refused :: pages => fun t =>
    if ks = [] then flushPages pages t
    else
      match refused with
      | some code => (t, .error (.client code))
      | none => flushPages pages (delCommand ks t).1

/-- `store.Flush`. -/
def flush : Effect Unit := cfg.withClient (flushPages svc.pages)

/-- Any operation of the contract, at one instant. -/
def exec : Op → Effect Res
  | .get key => (get svc cfg now key).map .value
  | .set key value ttl => (set svc cfg now key value ttl).map fun _ => .done
  | .add key value ttl => (add svc cfg now key value ttl).map .flag
  | .increment key delta ttl => (increment svc cfg now key delta ttl).map .number
  | .decrement key delta ttl => (decrement svc cfg now key delta ttl).map .number
  | .delete key => (delete svc cfg key).map fun _ => .done
  | .deleteMany keys => (deleteMany svc cfg keys).map fun _ => .done
  | .flush => (flush svc cfg).map fun _ => .done
  | .lockAcquire key owner ttl => (lockAcquire svc cfg now key owner ttl).map .flag
  | .lockRelease key owner => (lockRelease svc cfg now key owner).map .flag

/-! ## What a call reads and writes -/

section Locality

variable {svc cfg now} {F : Key → Prop} {α β : Type} {f : Effect α}

theorem local_command (h : Local F f) (c : Command) : Local F (svc.command c f) := by
  unfold Service.command
  split
  · exact local_const F _
  · exact h

theorem local_withClient (h : Local F f) : Local F (cfg.withClient f) := by
  unfold Config.withClient
  split
  · exact local_const F _
  · exact h

theorem local_withScripts (h : Local F f) : Local F (cfg.withScripts f) := by
  unfold Config.withScripts
  split
  · exact local_const F _
  · exact local_const F _
  · exact h

theorem local_andThen (hf : Local F f) {g : α → Effect β} (hg : ∀ a, Local F (g a)) :
    Local F (f.andThen g) := by
  have hnext : ∀ r : Except RedisError α, Local F fun t : Keyspace =>
      match r with
      | .error err => (t, .error err)
      | .ok a => g a t := by
    intro r
    cases r with
    | error err => exact local_const F _
    | ok a => exact hg a
  refine (hf.andThen hnext).of_eq fun t => ?_
  unfold Effect.andThen
  rcases f t with ⟨t', _ | a⟩ <;> rfl

theorem local_onKey {k : Key} (hk : F k)
    (f : Option Entry → Option Entry × Except RedisError α) : Local F (onKey now k f) := by
  refine local_of_entry hk fun found => ?_
  refine ⟨_, local_update hk (f (found.filter (Entry.live now))).1
    (f (found.filter (Entry.live now))).2, ?_⟩
  intro t ht
  rw [onKey, Keyspace.find, ht]

theorem local_increment {key : Key} (hk : F (cacheKey cfg key)) (delta : Int64) (ttl : Duration) :
    Local F (increment svc cfg now key delta ttl) := by
  refine local_withClient (local_andThen (local_command (local_onKey hk _) _) fun value => ?_)
  exact ((local_command (local_onKey hk _) _).map _).map _

theorem local_deleteMany {keys : List Key} (hkeys : ∀ key ∈ keys, F (cacheKey cfg key)) :
    Local F (deleteMany svc cfg keys) := by
  refine local_withClient ?_
  split
  · exact local_const F _
  · refine local_command (local_fill ?_ _ _) _
    intro k hk
    rcases List.mem_map.mp hk with ⟨key, hkey, rfl⟩
    exact hkeys key hkey

/-- A call other than `Flush` reads and writes only the entries of its own keys. -/
theorem exec_local {op : Op} (hop : op ≠ .flush)
    (hkeys : ∀ key ∈ op.keys.getD [], F (cacheKey cfg key)) : Local F (exec svc cfg now op) := by
  cases op with
  | get key =>
    exact (local_withClient (local_command
      (local_onKey (hkeys key List.mem_cons_self) _) _)).map _
  | set key value ttl =>
    exact (local_withClient (local_command
      (local_onKey (hkeys key List.mem_cons_self) _) _)).map _
  | add key value ttl =>
    exact (local_withClient (local_command
      (local_onKey (hkeys key List.mem_cons_self) _) _)).map _
  | increment key delta ttl =>
    exact (local_increment (hkeys key List.mem_cons_self) delta ttl).map _
  | decrement key delta ttl =>
    exact (local_increment (hkeys key List.mem_cons_self) (-delta) ttl).map _
  | delete key =>
    refine (local_withClient (local_command (local_fill ?_ _ _) _)).map _
    intro k hk
    rw [List.mem_singleton.mp hk]
    exact hkeys key List.mem_cons_self
  | deleteMany keys => exact (local_deleteMany hkeys).map _
  | flush => exact absurd rfl hop
  | lockAcquire key owner ttl =>
    exact (local_withScripts (local_withClient (local_command
      (local_onKey (hkeys key List.mem_cons_self) _) _))).map _
  | lockRelease key owner =>
    exact (local_withScripts (local_command
      (local_onKey (hkeys key List.mem_cons_self) _) _)).map _

end Locality

end Redis
end GoforjCache
