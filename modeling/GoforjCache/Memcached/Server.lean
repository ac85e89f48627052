import GoforjCache.Memcached.Wire

/-!
# Memcached - A server

The commands of a Memcached server as its protocol describes them: items with flags, a version and
an expiration time, a clock in seconds, and counters that are unsigned 64-bit decimals.  Every
command but `flush_all` and `version` names one key, and what it does is a function of
the item of that key.

Main results:

- Theorem `slot_keyed_self`, `slot_keyed_ne`: a command on a key changes the item of that
  key and no other.
- Theorem `storageChange_set`, `touchChange_formatNat`: what the storage and
  `touch` commands of the store do with the item of their key.
-/

namespace GoforjCache
namespace Memcached

open Foundation Foundation.Decimal

/-! ## Items -/

/-- An item with the second at which it expires, if any. -/
structure Item where
  entry : Entry
  expires : Option Nat

/-- The item is there at a second. -/
def Item.live (now : Nat) (item : Item) : Bool :=
  match item.expires with
  | none => true
  | some second => decide (now < second)

/-- Expiration times up to thirty days are relative. -/
def maxRelative : Nat := 30 * 24 * 60 * 60

/-- The second that an expiration time means: zero is never, a negative number is at once, a small
number counts from now, and a larger one is a Unix time. -/
def deadline (now : Nat) (exptime : Int) : Option Nat :=
  if exptime = 0 then none
  else if exptime < 0 then some 0
  else if exptime ≤ maxRelative then some (now + exptime.toNat)
  else some exptime.toNat

/-- A new item, unless its block is too long. -/
def newItem (flags : Nat) (data : Bytes) (cas : Nat) (expires : Option Nat) : Option Item :=
  if h : data.length ≤ maxAlloc then some ⟨⟨flags, data, cas, h⟩, expires⟩ else none

/-- An unsigned 64-bit decimal. -/
def parseUnsigned (text : Bytes) : Option Nat :=
  (parseDigits text).filter fun n => decide (n < 2 ^ 64)

/-- The number that an item holds; white space ends it. -/
def counterValue (data : Bytes) : Option Nat :=
  parseUnsigned (data.takeWhile fun b => !Words.isSpaceByte b)

/-- The text of a number in place of a text of the given length: a shorter one is filled up with
spaces. -/
def padded (n length : Nat) : Bytes :=
  formatNat n ++ List.replicate (length - (formatNat n).length) 32

/-! ## Reply lines -/

namespace Line

def stored : Line := ⟨ascii "STORED", by decide⟩
def notStored : Line := ⟨ascii "NOT_STORED", by decide⟩
def exists' : Line := ⟨ascii "EXISTS", by decide⟩
def notFound : Line := ⟨ascii "NOT_FOUND", by decide⟩
def touched : Line := ⟨ascii "TOUCHED", by decide⟩
def deleted : Line := ⟨ascii "DELETED", by decide⟩
def ok : Line := ⟨ascii "OK", by decide⟩
def version : Line := ⟨ascii "VERSION 1.6.21", by decide⟩
def error : Line := ⟨ascii "ERROR", by decide⟩
def tooLarge : Line := ⟨ascii "SERVER_ERROR object too large for cache", by decide⟩
def invalidDelta : Line := ⟨ascii "CLIENT_ERROR invalid numeric delta argument", by decide⟩
def invalidExptime : Line := ⟨ascii "CLIENT_ERROR invalid exptime argument", by decide⟩

def nonNumeric : Line :=
  ⟨ascii "CLIENT_ERROR cannot increment or decrement non-numeric value", by decide⟩

/-- The value of a counter. -/
def number (n : Nat) : Line := ⟨formatNat n, fun h => absurd (mem_formatNat h).1 (by decide)⟩

end Line

/-! ## Changes of one item -/

/-- The outcome of a write: a block that is too long leaves nothing. -/
def written (item : Option Item) : Option Item × Line :=
  match item with
  | some item => (some item, .stored)
  | none => (none, .tooLarge)

/-- A storage command other than `cas`. -/
def storageChange (verb : Bytes) (flags : Nat) (expires : Option Nat) (data : Bytes) (cas : Nat)
    (slot : Option Item) : Option Item × Line :=
  if verb = ascii "set" then written (newItem flags data cas expires)
  else
    match slot with
    | none =>
      if verb = ascii "add" then written (newItem flags data cas expires)
      else (none, .notStored)
    | some item =>
      if verb = ascii "replace" then written (newItem flags data cas expires)
      else if verb = ascii "append" then
        written (newItem item.entry.flags (item.entry.data ++ data) cas item.expires)
      else if verb = ascii "prepend" then
        written (newItem item.entry.flags (data ++ item.entry.data) cas item.expires)
      else (some item, .notStored)

/-- The `cas` command. -/
def casChange (flags : Nat) (expires : Option Nat) (data version : Bytes) (cas : Nat)
    (slot : Option Item) : Option Item × Line :=
  match slot with
  | none => (none, .notFound)
  | some item =>
    if parseDigits version = some item.entry.cas then
      written (newItem flags data cas expires)
    else (some item, .exists')

/-- The new value of a counter: `incr` wraps around, `decr` stops at zero. -/
def counterStep (verb : Bytes) (value delta : Nat) : Nat :=
  if verb = ascii "incr" then (value + delta) % 2 ^ 64 else value - delta

/-- The commands `incr` and `decr`. -/
def counterChange (verb arg : Bytes) (cas : Nat) (slot : Option Item) : Option Item × Line :=
  match parseUnsigned arg with
  | none => (slot, .invalidDelta)
  | some delta =>
    match slot with
    | none => (none, .notFound)
    | some item =>
      match counterValue item.entry.data with
      | none => (some item, .nonNumeric)
      | some value =>
        let n := counterStep verb value delta
        match newItem item.entry.flags (padded n item.entry.data.length) cas item.expires with
        | some item' => (some item', .number n)
        | none => (some item, .tooLarge)

/-- The `touch` command. -/
def touchChange (arg : Bytes) (now : Nat) (slot : Option Item) : Option Item × Line :=
  match parseInt arg with
  | none => (slot, .invalidExptime)
  | some exptime =>
    match slot with
    | none => (none, .notFound)
    | some item => (some { item with expires := deadline now exptime.toInt }, .touched)

theorem touchChange_formatNat {exptime : Nat} (h : exptime < 2 ^ 63) (now : Nat)
    (slot : Option Item) :
    touchChange (formatNat exptime) now slot =
      (slot.map fun item => { item with expires := deadline now exptime },
        if slot.isSome then .touched else .notFound) := by
  have hint : (Int64.ofInt exptime).toInt = exptime := Int64.toInt_ofInt_of_le (by omega) (by omega)
  rw [touchChange, parseInt_formatNat h]
  cases slot with
  | none => rfl
  | some item =>
    dsimp only
    rw [hint]
    rfl

/-- The `delete` command. -/
def deleteChange (slot : Option Item) : Option Item × Line :=
  match slot with
  | none => (none, .notFound)
  | some _ => (none, .deleted)

section StorageChange

variable (flags : Nat) (expires : Option Nat) (data : Bytes) (cas : Nat)

theorem storageChange_set (slot : Option Item) :
    storageChange (ascii "set") flags expires data cas slot =
      written (newItem flags data cas expires) := by
  unfold storageChange
  exact if_pos rfl

/-- `add` writes where nothing is. -/
theorem storageChange_add_none :
    storageChange (ascii "add") flags expires data cas none =
      written (newItem flags data cas expires) := rfl

/-- `add` leaves what is there. -/
theorem storageChange_add_some (item : Item) :
    storageChange (ascii "add") flags expires data cas (some item) = (some item, .notStored) := rfl

end StorageChange

/-! ## The server -/

/-- The clock, the items, and the next version. -/
structure Server where
  clock : Nat
  items : Key → Option Item
  nextCas : Nat

/-- The item of a key, unless it has expired. -/
def Server.slot (s : Server) (key : Key) : Option Item := (s.items key).filter (Item.live s.clock)

/-- A command on one key.  Versions are fresh numbers. -/
def Server.keyed (s : Server) (key : Key) (f : Nat → Option Item → Option Item × Line) :
    Server × Line :=
  ({ s with
    items := Function.update s.items key (f s.nextCas (s.slot key)).1
    nextCas := s.nextCas + 1 }, (f s.nextCas (s.slot key)).2)

/-- The expiration time of a storage line. -/
def Server.storageDeadline (s : Server) (exptime : Bytes) : Option Nat :=
  deadline s.clock (((parseInt exptime).map Int64.toInt).getD 0)

/-- The commands. -/
def Server.exec (s : Server) (c : Command) : Server × Line :=
  match c.words, c.data with
  | [verb, key, flags, exptime, _], some data =>
    s.keyed key (storageChange verb ((parseDigits flags).getD 0)
      (s.storageDeadline exptime) data)
  | [_, key, flags, exptime, _, version], some data =>
    s.keyed key (casChange ((parseDigits flags).getD 0) (s.storageDeadline exptime) data
      version)
  | [verb, key, arg], none =>
    if verb = ascii "incr" ∨ verb = ascii "decr" then s.keyed key (counterChange verb arg)
    else if verb = ascii "touch" then s.keyed key fun _ => touchChange arg s.clock
    else (s, .error)
  | [verb, key], none =>
    if verb = ascii "delete" then s.keyed key fun _ => deleteChange else (s, .error)
  | [verb], none =>
    if verb = ascii "flush_all" then ({ s with items := fun _ => none }, .ok)
    else if verb = ascii "version" then (s, .version)
    else (s, .error)
  | _, _ => (s, .error)

/-- A Memcached server. -/
def memcached : Backend Server where
  lookup s key := (s.slot key).map Item.entry
  exec := Server.exec

/-! ## One command, one item -/

@[simp]
theorem Server.keyed_clock (s : Server) (key : Key)
    (f : Nat → Option Item → Option Item × Line) : (s.keyed key f).1.clock = s.clock := rfl

/-- The item of the key after a command. -/
theorem Server.slot_keyed_self (s : Server) (key : Key)
    (f : Nat → Option Item → Option Item × Line) :
    (s.keyed key f).1.slot key = (f s.nextCas (s.slot key)).1.filter (Item.live s.clock) := by
  simp [slot, keyed]

/-- The items of the other keys after a command. -/
theorem Server.slot_keyed_ne (s : Server) {key other : Key} (h : other ≠ key)
    (f : Nat → Option Item → Option Item × Line) : (s.keyed key f).1.slot other = s.slot other := by
  simp [slot, keyed, Function.update_of_ne h]

theorem Server.live_of_slot {s : Server} {key : Key} {item : Item} (h : s.slot key = some item) :
    item.live s.clock = true :=
  (Option.filter_eq_some_iff.mp h).2

/-- The expiration time of a lifetime. -/
theorem Server.storageDeadline_formatNat (s : Server) {exptime : Nat} (h : exptime < 2 ^ 63) :
    s.storageDeadline (formatNat exptime) = deadline s.clock exptime := by
  have hint : (Int64.ofInt exptime).toInt = exptime := Int64.toInt_ofInt_of_le (by omega) (by omega)
  rw [storageDeadline, parseInt_formatNat h]
  simp only [Option.map_some, Option.getD_some, hint]

theorem Server.exec_touch (s : Server) (key : Key) (arg : Bytes) :
    s.exec ⟨[ascii "touch", key, arg], none⟩ = s.keyed key fun _ => touchChange arg s.clock := rfl

theorem Server.exec_delete (s : Server) (key : Key) :
    s.exec ⟨[ascii "delete", key], none⟩ = s.keyed key fun _ => deleteChange := rfl

/-- A new item of a block that a Go slice can hold. -/
theorem newItem_of_le {data : Bytes} (h : data.length ≤ maxAlloc) (flags cas : Nat)
    (expires : Option Nat) :
    newItem flags data cas expires = some ⟨⟨flags, data, cas, h⟩, expires⟩ :=
  dif_pos h

/-- A relative expiration time is in the future. -/
theorem live_deadline {now exptime : Nat} (hpos : 0 < exptime) (hle : exptime ≤ maxRelative)
    (e : Entry) : (Item.mk e (deadline now exptime)).live now = true := by
  unfold deadline
  rw [if_neg (by omega), if_neg (by omega), if_pos (by exact_mod_cast hle)]
  simp only [Item.live, Int.toNat_natCast, decide_eq_true_eq]
  omega

end Memcached
end GoforjCache
