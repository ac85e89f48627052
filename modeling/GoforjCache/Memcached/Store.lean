import GoforjCache.Memcached.Wire

/-!
# Memcached - The store

The store of `driver/memcachedcache/store.go`.  Every call takes a connection from the pool of
one of the configured addresses, in the order that a shared counter gives, or dials a new one;
exchanges commands on it; and returns it to its pool unless the exchange marked it as bad.

What goes over a connection is a `Link`, and the calls of the store are written over an
arbitrary one.  The link of the source is `wire`: it writes the text of the commands and reads
the text of the replies.

A call ends with a result, with an error, or not at all: because it waits for bytes that nobody will
send, or because the recursion of `incr` goes on after `fuel` rounds.
-/

namespace GoforjCache
namespace Memcached

open Foundation Foundation.Decimal
open Words (crlf fields trimSpace unwords)

/-! ## Configuration -/

/-- An address of a server. -/
abbrev Addr := Bytes

/-- What `New` keeps of its configuration. -/
structure Config where
  addrs : List Addr
  keyPrefix : Bytes
  defaultTTL : DefaultTTL

/-- `New`: the defaults of an empty configuration. -/
def Config.new (addresses : List Addr) (defaultTTL : Duration) (keyPrefix : Bytes) : Config where
  addrs := if addresses = [] then [ascii "127.0.0.1:11211"] else addresses
  keyPrefix := if keyPrefix = [] then ascii "app" else keyPrefix
  defaultTTL := .normalize defaultTTL

/-- `cacheKey`. -/
def Config.cacheKey (cfg : Config) (key : Key) : Key :=
  if cfg.keyPrefix = [] then key else cfg.keyPrefix ++ 58 :: key

/-- `expiredMemcachedTimestamp`. -/
def expiredMemcachedTimestamp : Nat := 30 * 24 * 60 * 60 + 1

/-- `int(ttl.Seconds())` of a positive lifetime.  The seconds are a floating-point sum: from
`2 ^ 24` seconds on, a fraction that is close enough to one is rounded up before the fraction
is cut off. -/
def wholeSeconds (ttl : Duration) : Nat :=
  let whole := ttl.toInt.toNat / 10 ^ 9
  let missing := 10 ^ 9 - ttl.toInt.toNat % 10 ^ 9
  if missing * 2 ^ (53 - Nat.log2 whole) ≤ 10 ^ 9 then whole + 1 else whole

/-- The expiration time of a lifetime, at least one second. -/
def seconds (ttl : Duration) : Nat :=
  if wholeSeconds ttl < 1 then 1 else wholeSeconds ttl

/-! ## Links -/

/-- What the store does on a connection.  The commands that are answered by one line are given by
their words. -/
structure Link (σ γ : Type) where
  /-- A connection after the dial. -/
  fresh : γ
  /-- The peer closes the connection. -/
  close : γ → γ
  get : Key → Action σ γ (Option Bytes)
  /-- The value and the text of its version. -/
  gets : Key → Action σ γ (Option (Bytes × Bytes))
  ask : List Bytes → Action σ γ Bytes
  storage : (verb : Bytes) → Key → (exptime : Nat) → (value : Bytes) → Action σ γ Bytes
  cas : Key → (exptime : Nat) → (version : Bytes) → Action σ γ Bytes

/-- The words of a storage line. -/
def storageWords (verb : Bytes) (full : Key) (exptime length : Nat) : List Bytes :=
  [verb, full, ascii "0", formatNat exptime, formatNat length]

section Wire

variable {σ : Type} (B : Backend σ)

/-- The common part of `Get` and `LockRelease`: a retrieval command with the parsing of
its reply, up to the tests of the header that differ.  The result is the value with the fields of
the header. -/
def retrieve (verb : Bytes) (accepts : List Bytes → Bool) (bad : Bool) (full : Key) :
    Action σ Conn (Option (Bytes × List Bytes)) :=
  (send B (unwords [verb, full] ++ crlf)).andThen fun _ =>
    readLine.andThen fun line =>
      if line = ascii "END" ++ crlf then .done (.ok none)
      else if accepts (fields (trimSpace line)) then
        match parseInt ((fields (trimSpace line)).getD 3 []) with
        | none => .done (.err .parseLength bad)
        | some length =>
          (readBlock length).andThen fun value =>
            .done (.ok (some (value, fields (trimSpace line))))
      else .done (.err (.unexpected (trimSpace line)) bad)

/-- The test of `Get`. -/
def acceptsGet (header : List Bytes) : Bool :=
  decide (4 ≤ header.length) && header.head? == some (ascii "VALUE")

/-- The test of `LockRelease`. -/
def acceptsGets (header : List Bytes) : Bool :=
  decide (header.length = 5) && header.head? == some (ascii "VALUE")

/-- The link of the source. -/
def wire : Link σ Conn where
  fresh := .idle true
  close c := { c with alive := false }
  get full :=
    (retrieve B (ascii "get") acceptsGet false full).andThen fun r =>
      .done (.ok (r.map fun v => v.1))
  gets full :=
    (retrieve B (ascii "gets") acceptsGets true full).andThen fun r =>
      .done (.ok (r.map fun v => (v.1, v.2.getD 4 [])))
  ask ws := (send B (unwords ws ++ crlf)).andThen fun _ => readLine
  storage verb full exptime value :=
    (send B (unwords (storageWords verb full exptime value.length) ++ crlf)).andThen fun _ =>
      (send B value).andThen fun _ => (send B crlf).andThen fun _ => readLine
  cas full exptime version :=
    (send B (unwords (storageWords (ascii "cas") full exptime 0 ++ [version]) ++ crlf ++
      crlf)).andThen fun _ => readLine

end Wire

/-! ## Exchanges -/

/-- The interpretation of a reply line that succeeds by its first bytes only. -/
def expect (start : Bytes) (fail : Bytes → MemcachedError) (line : Bytes) : Outcome Unit :=
  if start.isPrefixOf line then .ok () else .err (fail (trimSpace line)) true

/-- `Add`'s interpretation of the reply. -/
def addReply (line : Bytes) : Outcome Bool :=
  if (ascii "STORED").isPrefixOf line then .ok true
  else if (ascii "NOT_STORED").isPrefixOf line then .ok false
  else .err (.addFailed (trimSpace line)) true

/-- `LockRelease`'s interpretation of the reply to `cas`. -/
def releaseReply (line : Bytes) : Outcome Bool :=
  if (ascii "EXISTS").isPrefixOf line || (ascii "NOT_FOUND").isPrefixOf line then .ok false
  else if (ascii "STORED").isPrefixOf line then .ok true
  else .err (.releaseFailed (trimSpace line)) true

/-- `incr`'s interpretation of the reply to `touch`. -/
def touchReply (line : Bytes) : Outcome Unit :=
  if (ascii "TOUCHED").isPrefixOf line || (ascii "NOT_FOUND").isPrefixOf line then .ok ()
  else .err (.touchFailed (trimSpace line)) true

/-- `incr`'s interpretation of a trimmed line other than `NOT_FOUND`. -/
def counterReply (line : Bytes) : Outcome Int64 :=
  if (ascii "ERROR").isPrefixOf line then .err (.serverError line) true
  else
    match parseInt line with
    | some n => .ok n
    | none => .err .notNumber true

namespace Link

variable {σ γ : Type} (L : Link σ γ)

/-- `Ready` on a connection. -/
def ready : Action σ γ Unit :=
  (L.ask [ascii "version"]).andThen fun line => .done (expect (ascii "VERSION ") .notReady line)

/-- `Set` on a connection. -/
def set (full : Key) (ttl : Duration) (value : Bytes) : Action σ γ Unit :=
  (L.storage (ascii "set") full (seconds ttl) value).andThen fun line =>
    .done (expect (ascii "STORED") .setFailed line)

/-- `Add` on a connection. -/
def add (full : Key) (ttl : Duration) (value : Bytes) : Action σ γ Bool :=
  (L.storage (ascii "add") full (seconds ttl) value).andThen fun line => .done (addReply line)

/-- `LockRelease` on a connection. -/
def release (full : Key) (owner : Bytes) : Action σ γ Bool :=
  (L.gets full).andThen fun r =>
    match r with
    | none => .done (.ok false)
    | some (value, version) =>
      if value ≠ owner then .done (.ok false)
      else
        (L.cas full expiredMemcachedTimestamp version).andThen fun line =>
          .done (releaseReply line)

/-- The counter command of `incr` and its trimmed reply. -/
def count (verb : Bytes) (full : Key) (delta : Int64) : Action σ γ Bytes :=
  (L.ask [verb, full, formatInt delta]).andThen fun line => .done (.ok (trimSpace line))

/-- What `incr` does after the reply: it parses the number and refreshes the expiration. -/
def counted (full : Key) (ttl : Duration) (line : Bytes) : Action σ γ Int64 :=
  Action.andThen (.done (counterReply line)) fun n =>
    if 0 < ttl then
      (L.ask [ascii "touch", full, formatNat (seconds ttl)]).andThen fun touchLine =>
        Action.andThen (.done (touchReply touchLine)) fun _ => .done (.ok n)
    else .done (.ok n)

/-- `Delete` on a connection: the reply is not looked at. -/
def delete (full : Key) : Action σ γ Unit :=
  (L.ask [ascii "delete", full]).andThen fun _ => .done (.ok ())

/-- `Flush` on a connection. -/
def flush : Action σ γ Unit :=
  (L.ask [ascii "flush_all"]).andThen fun line => .done (expect (ascii "OK") .flushFailed line)

end Link

/-! ## Connections of the store -/

/-- The servers, the pool of each address, oldest connection first, and the round-robin counter. -/
structure State (σ γ : Type) where
  servers : Addr → σ
  pools : Addr → List γ
  rr : UInt32

/-- How a call ends; `none` if it does not. -/
abbrev Reply (α : Type) := Option (Except MemcachedError α)

/-- A call of the store. -/
abbrev Call (σ γ α : Type) := State σ γ → Reply α × State σ γ

namespace Call

variable {σ γ α β : Type}

/-- A call that ends at once. -/
def done (r : Except MemcachedError α) : Call σ γ α := fun S => (some r, S)

/-- One call after the other; an error ends both. -/
def andThen (f : Call σ γ α) (g : α → Call σ γ β) : Call σ γ β := fun S =>
  match f S with
  | (some (.ok a), S') => g a S'
  | (some (.error e), S') => (some (.error e), S')
  | (none, S') => (none, S')

/-- The call of the contract that a method is. -/
def map (f : α → β) (call : Call σ γ α) : Call σ γ β := call.andThen fun a => done (.ok (f a))

/-- The call while its caller holds a connection: an error does not mark that one as bad. -/
def nested (call : Call σ γ α) : Action (State σ γ) γ α := fun S c =>
  match call S with
  | (some (.ok a), S') => (.ok a, S', c)
  | (some (.error e), S') => (.err e false, S', c)
  | (none, S') => (.blocked, S', c)

end Call

section Store

variable {σ γ : Type} (L : Link σ γ) (cfg : Config)

/-- The capacity of a pool. -/
def poolSize : Nat := 16

/-- The loop of `acquire` over the addresses in their order. -/
def acquireFrom (dials : Addr → Bool) :
    List Addr → State σ γ → Except MemcachedError (Addr × γ) × State σ γ
  | [], S => (.error .dialFailed, S)
  | addr :: rest, S =>
    match S.pools addr with
    | c :: cs => (.ok (addr, c), { S with pools := Function.update S.pools addr cs })
    | [] => if dials addr then (.ok (addr, L.fresh), S) else acquireFrom dials rest S

/-- `acquire`.  Which dials succeed may differ from one call to the next, that is, from one
value of the counter to the next. -/
def acquire (dials : UInt32 → Addr → Bool) (S : State σ γ) :
    Except MemcachedError (Addr × γ) × State σ γ :=
  if cfg.addrs = [] then (.error .noAddresses, S)
  else
    acquireFrom L (dials S.rr) (cfg.addrs.rotate (S.rr.toNat % cfg.addrs.length))
      { S with rr := S.rr + 1 }

/-- `release`. -/
def State.release (S : State σ γ) (addr : Addr) (c : γ) (bad : Bool) : State σ γ :=
  if bad then S
  else if (S.pools addr).length < poolSize then
    { S with pools := Function.update S.pools addr (S.pools addr ++ [c]) }
  else S

/-- An exchange with the server of an address. -/
def onServer {α : Type} (addr : Addr) (f : Action σ γ α) : Action (State σ γ) γ α := fun S c =>
  let r := f (S.servers addr) c
  (r.1, { S with servers := Function.update S.servers addr r.2.1 }, r.2.2)

variable (dials : UInt32 → Addr → Bool)

/-- A call with a connection: `acquire`, the body, and the deferred `release`.  A body
that does not end keeps its connection. -/
def withConn {α : Type} (body : Addr → Action (State σ γ) γ α) : Call σ γ α := fun S =>
  match acquire L cfg dials S with
  | (.error e, S') => (some (.error e), S')
  | (.ok (addr, c), S') =>
    match body addr S' c with
    | (.ok a, S'', c') => (some (.ok a), S''.release addr c' false)
    | (.err e bad, S'', c') => (some (.error e), S''.release addr c' bad)
    | (.blocked, S'', _) => (none, S'')

/-- A call with one exchange. -/
def exchange {α : Type} (f : Action σ γ α) : Call σ γ α :=
  withConn L cfg dials fun addr => onServer addr f

/-! ## The methods -/

/-- `Ready`. -/
def ready : Call σ γ Unit := exchange L cfg dials L.ready

/-- `Get`. -/
def get (key : Key) : Call σ γ (Option Bytes) := exchange L cfg dials (L.get (cfg.cacheKey key))

/-- `Set`. -/
def set (key : Key) (value : Bytes) (ttl : Duration) : Call σ γ Unit :=
  exchange L cfg dials (L.set (cfg.cacheKey key) (cfg.defaultTTL.resolve ttl) value)

/-- `Add`. -/
def add (key : Key) (value : Bytes) (ttl : Duration) : Call σ γ Bool :=
  exchange L cfg dials (L.add (cfg.cacheKey key) (cfg.defaultTTL.resolve ttl) value)

/-- `LockAcquire`. -/
def lockAcquire (key : Key) (owner : Bytes) (ttl : Duration) : Call σ γ Bool :=
  add L cfg dials key owner ttl

/-- `LockRelease`. -/
def lockRelease (key : Key) (owner : Bytes) : Call σ γ Bool :=
  exchange L cfg dials (L.release (cfg.cacheKey key) owner)

/-- `incr`.  On a miss it stores a zero and starts again, on connections of their own. -/
def incr (verb : Bytes) (key : Key) (delta : Int64) : Nat → Duration → Call σ γ Int64
  | 0, _ => fun S => (none, S)
  | fuel + 1, ttl =>
    withConn L cfg dials fun addr =>
      (onServer addr (L.count verb (cfg.cacheKey key) delta)).andThen fun line =>
        if line = ascii "NOT_FOUND" then
          (set L cfg dials key (ascii "0") (cfg.defaultTTL.resolve ttl)).nested.andThen fun _ =>
            (incr verb key delta fuel (cfg.defaultTTL.resolve ttl)).nested
        else
          onServer addr (L.counted (cfg.cacheKey key) (cfg.defaultTTL.resolve ttl) line)

/-- `decrement`. -/
def decrement (fuel : Nat) (key : Key) (delta : Int64) (ttl : Duration) : Call σ γ Int64 :=
  incr L cfg dials (ascii "decr") key delta fuel ttl

/-- `Increment`. -/
def increment (fuel : Nat) (key : Key) (delta : Int64) (ttl : Duration) : Call σ γ Int64 :=
  if delta < 0 then decrement L cfg dials fuel key (-delta) ttl
  else incr L cfg dials (ascii "incr") key delta fuel ttl

/-- `Decrement`. -/
def decrementCall (fuel : Nat) (key : Key) (delta : Int64) (ttl : Duration) : Call σ γ Int64 :=
  if delta < 0 then increment L cfg dials fuel key (-delta) ttl
  else decrement L cfg dials fuel key delta ttl

/-- `Delete`. -/
def delete (key : Key) : Call σ γ Unit := exchange L cfg dials (L.delete (cfg.cacheKey key))

/-- `DeleteMany`. -/
def deleteMany : List Key → Call σ γ Unit
  | [] => .done (.ok ())
  | key :: keys => (delete L cfg dials key).andThen fun _ => deleteMany keys

/-- `Flush`. -/
def flush : Call σ γ Unit := exchange L cfg dials L.flush

/-- One call of the store contract. -/
def exec (fuel : Nat) : Op → Call σ γ Res
  | .get key => (get L cfg dials key).map .value
  | .set key value ttl => (set L cfg dials key value ttl).map fun _ => .done
  | .add key value ttl => (add L cfg dials key value ttl).map .flag
  | .increment key delta ttl => (increment L cfg dials fuel key delta ttl).map .number
  | .decrement key delta ttl => (decrementCall L cfg dials fuel key delta ttl).map .number
  | .delete key => (delete L cfg dials key).map fun _ => .done
  | .deleteMany keys => (deleteMany L cfg dials keys).map fun _ => .done
  | .flush => (flush L cfg dials).map fun _ => .done
  | .lockAcquire key owner ttl => (lockAcquire L cfg dials key owner ttl).map .flag
  | .lockRelease key owner => (lockRelease L cfg dials key owner).map .flag

end Store

end Memcached
end GoforjCache
