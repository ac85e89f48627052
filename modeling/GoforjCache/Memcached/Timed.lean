import GoforjCache.Memcached.ReadYourWrites

/-!
# Memcached - A server with a fine clock

A Memcached server whose clock has any number of ticks in a second: a relative expiration time ends
so many whole seconds after the command that sets it, and an absolute one at the beginning of its
second.  With one tick in a second this is the server that the store was modelled with.  Of the
commands, only those that set an expiration time look at the clock.

Main results:

- Theorem `timed_one`: with one tick in a second, this is the server with a clock of seconds.
- Theorems `count_missing`, `count_number`, `count_text`, `count_negative`: the
  counter command, by what the key holds.
- Theorems `set_timed`, `add_eq_set`, `counted_number`: the commands that set an
  expiration time.
-/

namespace GoforjCache
namespace Memcached

open Foundation Foundation.Decimal

/-! ## The server -/

/-- The tick that an expiration time means, with `rate` ticks in a second. -/
def deadlineAt (rate now : Nat) (exptime : Int) : Option Nat :=
  if exptime = 0 then none
  else if exptime < 0 then some 0
  else if exptime ≤ maxRelative then some (now + exptime.toNat * rate)
  else some (exptime.toNat * rate)

/-- The `touch` command. -/
def touchChangeAt (rate : Nat) (arg : Bytes) (now : Nat) (slot : Option Item) :
    Option Item × Line :=
  match parseInt arg with
  | none => (slot, .invalidExptime)
  | some exptime =>
    match slot with
    | none => (none, .notFound)
    | some item => (some { item with expires := deadlineAt rate now exptime.toInt }, .touched)

/-- The expiration time of a storage line. -/
def Server.storageDeadlineAt (rate : Nat) (s : Server) (exptime : Bytes) : Option Nat :=
  deadlineAt rate s.clock (((parseInt exptime).map Int64.toInt).getD 0)

/-- The commands. -/
def Server.execAt (rate : Nat) (s : Server) (c : Command) : Server × Line :=
  match c.words, c.data with
  | [verb, key, flags, exptime, _], some data =>
    s.keyed key (storageChange verb ((parseDigits flags).getD 0)
      (s.storageDeadlineAt rate exptime) data)
  | [_, key, flags, exptime, _, version], some data =>
    s.keyed key (casChange ((parseDigits flags).getD 0)
      (s.storageDeadlineAt rate exptime) data version)
  | [verb, key, arg], none =>
    if verb = ascii "incr" ∨ verb = ascii "decr" then s.keyed key (counterChange verb arg)
    else if verb = ascii "touch" then s.keyed key fun _ => touchChangeAt rate arg s.clock
    else (s, .error)
  | [verb, key], none =>
    if verb = ascii "delete" then s.keyed key fun _ => deleteChange else (s, .error)
  | [verb], none =>
    if verb = ascii "flush_all" then ({ s with items := fun _ => none }, .ok)
    else if verb = ascii "version" then (s, .version)
    else (s, .error)
  | _, _ => (s, .error)

/-- A Memcached server with `rate` ticks in a second. -/
def timed (rate : Nat) : Backend Server where
  lookup s key := (s.slot key).map Item.entry
  exec := Server.execAt rate

theorem deadlineAt_one (now : Nat) (exptime : Int) : deadlineAt 1 now exptime =
    deadline now exptime := by
  unfold deadlineAt deadline
  rw [Nat.mul_one]

/-- With one tick in a second, this is the server with a clock of seconds. -/
theorem timed_one : timed 1 = memcached := by
  have hstorage : Server.storageDeadlineAt 1 = Server.storageDeadline := by
    funext s exptime
    exact deadlineAt_one s.clock _
  have htouch : touchChangeAt 1 = touchChange := by
    funext arg now slot
    unfold touchChangeAt touchChange
    cases parseInt arg with
    | none => rfl
    | some exptime =>
      cases slot with
      | none => rfl
      | some item =>
        dsimp only
        rw [deadlineAt_one]
  have hexec : Server.execAt 1 = Server.exec := by
    funext s c
    unfold Server.execAt Server.exec
    rewrite [hstorage, htouch]
    rfl
  unfold timed memcached
  rw [hexec]

/-! ## Numbers of a counter -/

variable {n : Nat}

/-- Numbers below `2 ^ 64` have at most twenty digits. -/
theorem length_formatNat_le (hn : n < 2 ^ 64) : (formatNat n).length ≤ 20 := by
  unfold formatNat
  split
  · decide
  · rw [List.length_reverse, List.length_map, Nat.digits_length_le_iff (by norm_num)]
    omega

theorem length_padded_le {length : Nat} (hn : n < 2 ^ 64) (hlength : length ≤ maxAlloc) :
    (padded n length).length ≤ maxAlloc := by
  have hdigits := length_formatNat_le hn
  have hbound : 20 ≤ maxAlloc := by decide
  rw [padded, List.length_append, List.length_replicate]
  omega

theorem parseUnsigned_formatNat (hn : n < 2 ^ 64) : parseUnsigned (formatNat n) = some n := by
  rw [parseUnsigned, parseDigits_formatNat, Option.filter_some,
    if_pos (decide_eq_true hn)]

/-- A number is read back, whether or not spaces follow it. -/
theorem counterValue_padded (hn : n < 2 ^ 64) (length : Nat) :
    counterValue (padded n length) = some n := by
  have hdigits : ∀ b ∈ formatNat n, (!Words.isSpaceByte b) = true := by
    intro b hb
    rw [Words.isSpaceByte_of_printable (printable_formatNat n b hb)]
    rfl
  have hspaces : ∀ k, (List.replicate k (32 : UInt8)).takeWhile
      (fun b => !Words.isSpaceByte b) = [] := by
    intro k
    cases k with
    | zero => rfl
    | succ k => rfl
  rw [counterValue, padded, List.takeWhile_append_of_pos hdigits, hspaces, List.append_nil,
    parseUnsigned_formatNat hn]

theorem counterValue_lt {data : Bytes} {v : Nat} (h : counterValue data = some v) : v < 2 ^ 64 := by
  unfold counterValue parseUnsigned at h
  exact of_decide_eq_true (Option.filter_eq_some_iff.mp h).2

/-- A counter stays in the range of the server. -/
theorem counterStep_lt (verb : Bytes) {v : Nat} (hv : v < 2 ^ 64) (d : Nat) :
    counterStep verb v d < 2 ^ 64 := by
  unfold counterStep
  split
  · exact Nat.mod_lt _ (by norm_num)
  · omega

/-- The text of a delta that is not negative is its number. -/
theorem parseUnsigned_formatInt {delta : Int64} (hnonneg : 0 ≤ delta) :
    parseUnsigned (formatInt delta) = some delta.toInt.toNat := by
  have hnonneg' : 0 ≤ delta.toInt := by
    rw [Int64.le_iff_toInt_le] at hnonneg
    simpa using hnonneg
  have hlt := delta.toInt_lt
  have habs : delta.toInt.natAbs = delta.toInt.toNat := by omega
  rw [formatInt, if_neg (by omega), habs, parseUnsigned_formatNat (by omega)]

/-- The server takes no sign. -/
theorem parseUnsigned_formatInt_neg {delta : Int64} (hneg : delta < 0) :
    parseUnsigned (formatInt delta) = none := by
  have hneg' : delta.toInt < 0 := by
    rw [Int64.lt_iff_toInt_lt] at hneg
    simpa using hneg
  have hdigit : digitValue 45 = none := by decide
  rw [formatInt, if_pos hneg', parseUnsigned, parseDigits, if_neg (by simp),
    List.foldlM_cons, hdigit]
  rfl

/-- The end of a line of digits is trimmed off. -/
theorem trimSpace_formatNat (n : Nat) :
    Words.trimSpace (formatNat n ++ Words.crlf) = formatNat n := by
  apply Words.trimSpace_append_crlf (formatNat_ne_nil n)
  · cases htext : formatNat n with
    | nil => rfl
    | cons b text =>
      have hmem : b ∈ formatNat n := by
        rw [htext]
        exact List.mem_cons_self
      exact Words.spaceLen_of_printable (printable_formatNat n b hmem) text
  · cases htext : (formatNat n).reverse with
    | nil => rfl
    | cons b text =>
      have hmem : b ∈ formatNat n := by
        rw [← List.mem_reverse, htext]
        exact List.mem_cons_self
      exact Words.spaceLenBack_of_printable (printable_formatNat n b hmem) text

/-- A line of digits is neither `NOT_FOUND` nor an error. -/
theorem formatNat_ne_notFound (n : Nat) : formatNat n ≠ ascii "NOT_FOUND" ∧
    (ascii "ERROR").isPrefixOf (formatNat n) = false := by
  have hdigit : ∀ b ∈ formatNat n, b ≤ 57 := fun b hb => (mem_formatNat hb).2
  constructor
  · intro heq
    exact absurd (hdigit 78 (by rw [heq]; decide)) (by decide)
  · rw [Bool.eq_false_iff]
    intro hpre
    have hmem := (List.isPrefixOf_iff_prefix.mp hpre).subset (show 69 ∈ ascii "ERROR" by decide)
    exact absurd (hdigit 69 hmem) (by decide)

/-- A number of 63 bits is what the store returns. -/
theorem counterReply_formatNat (hn : n < 2 ^ 63) :
    formatNat n ≠ ascii "NOT_FOUND" ∧ counterReply (formatNat n) = .ok (Int64.ofInt n) := by
  rcases formatNat_ne_notFound n with ⟨hfound, herror⟩
  refine ⟨hfound, ?_⟩
  rw [counterReply, herror, parseInt_formatNat hn]
  rfl

/-- A larger number is an error of the store, although the server has stored it. -/
theorem counterReply_formatNat_of_le (hn : 2 ^ 63 ≤ n) :
    counterReply (formatNat n) = .err .notNumber true := by
  rw [counterReply, (formatNat_ne_notFound n).2, parseInt_formatNat_of_le hn]
  rfl

/-! ## The counter command -/

/-- A command that leaves the item of its key as it is leaves all of them. -/
theorem slot_keyed_eq (s : Server) (full : Key) {f : Nat → Option Item → Option Item × Line}
    (h : (f s.nextCas (s.slot full)).1 = s.slot full) : (s.keyed full f).1.slot = s.slot := by
  funext other
  by_cases hother : other = full
  · subst hother
    rw [Server.slot_keyed_self, h]
    cases hslot : s.slot other with
    | none => rfl
    | some item => exact if_pos (Server.live_of_slot hslot)
  · exact Server.slot_keyed_ne s hother f

section Count

variable (rate : Nat) (s : Server) (full : Key) {verb : Bytes}
  (hverb : verb = ascii "incr" ∨ verb = ascii "decr") {delta : Int64}

include hverb

/-- The counter command in terms of the item of its key. -/
theorem count_timed {slot : Option Item} {line : Line}
    (hchange : counterChange verb (formatInt delta) s.nextCas (s.slot full) = (slot, line)) :
    (opened (timed rate)).count verb full delta s () =
      (.ok (Words.trimSpace (line.text ++ Words.crlf)),
        (s.keyed full (counterChange verb (formatInt delta))).1, ()) := by
  have hexec : (timed rate).exec s ⟨[verb, full, formatInt delta], none⟩ =
      s.keyed full (counterChange verb (formatInt delta)) := if_pos hverb
  have hline : (s.keyed full (counterChange verb (formatInt delta))).2 = line := by
    rw [Server.keyed, hchange]
  change (Outcome.ok (Words.trimSpace (((timed rate).exec s _).2.text ++ Words.crlf)),
    ((timed rate).exec s _).1, ()) = _
  rw [hexec, hline]

/-- The key is missing. -/
theorem count_missing (hdelta : 0 ≤ delta) (h : s.slot full = none) :
    ∃ s', (opened (timed rate)).count verb full delta s () = (.ok (ascii "NOT_FOUND"), s', ()) ∧
      s'.clock = s.clock ∧ s'.slot = s.slot := by
  have hchange : counterChange verb (formatInt delta) s.nextCas (s.slot full) =
      (none, .notFound) := by
    rw [h, counterChange, parseUnsigned_formatInt hdelta]
  have hline : Words.trimSpace (Line.notFound.text ++ Words.crlf) = ascii "NOT_FOUND" := by decide
  have hcount := count_timed rate s full hverb hchange
  rw [hline] at hcount
  refine ⟨_, hcount, rfl, slot_keyed_eq s full ?_⟩
  rw [hchange, h]

/-- The key holds a number. -/
theorem count_number (hdelta : 0 ≤ delta) {item : Item} {v : Nat} (h : s.slot full = some item)
    (hv : counterValue item.entry.data = some v) :
    ∃ s' item', (opened (timed rate)).count verb full delta s () =
        (.ok (formatNat (counterStep verb v delta.toInt.toNat)), s', ()) ∧
      s'.clock = s.clock ∧ s'.slot full = some item' ∧
      counterValue item'.entry.data = some (counterStep verb v delta.toInt.toNat) ∧
      item'.expires = item.expires ∧ ∀ other, other ≠ full → s'.slot other = s.slot other := by
  have hsmall := counterStep_lt verb (counterValue_lt hv) delta.toInt.toNat
  have hshort := length_padded_le hsmall item.entry.short
  let item' : Item := ⟨⟨item.entry.flags, _, s.nextCas, hshort⟩, item.expires⟩
  have hchange : counterChange verb (formatInt delta) s.nextCas (s.slot full) =
      (some item', .number (counterStep verb v delta.toInt.toNat)) := by
    rw [h, counterChange, parseUnsigned_formatInt hdelta]
    dsimp only
    rw [hv]
    dsimp only
    rw [newItem_of_le hshort]
  have hlive : item.live s.clock = true := Server.live_of_slot h
  have hcount := count_timed rate s full hverb hchange
  rw [Line.number, trimSpace_formatNat] at hcount
  refine ⟨_, item', hcount, rfl, ?_, counterValue_padded hsmall _, rfl,
    fun other hother => Server.slot_keyed_ne s hother _⟩
  rw [Server.slot_keyed_self, hchange, Option.filter_some]
  exact if_pos hlive

/-- The key holds something else. -/
theorem count_text (hdelta : 0 ≤ delta) {item : Item} (h : s.slot full = some item)
    (hv : counterValue item.entry.data = none) :
    ∃ s' line, (opened (timed rate)).count verb full delta s () = (.ok line, s', ()) ∧
      line ≠ ascii "NOT_FOUND" ∧ counterReply line = .err .notNumber true ∧
      s'.clock = s.clock ∧ s'.slot = s.slot := by
  have hchange : counterChange verb (formatInt delta) s.nextCas (s.slot full) =
      (some item, .nonNumeric) := by
    rw [h, counterChange, parseUnsigned_formatInt hdelta]
    dsimp only
    rw [hv]
  refine ⟨_, _, count_timed rate s full hverb hchange, by decide, by decide, rfl,
    slot_keyed_eq s full ?_⟩
  rw [hchange, h]

/-- The delta has a sign. -/
theorem count_negative (hdelta : delta < 0) :
    ∃ s' line, (opened (timed rate)).count verb full delta s () = (.ok line, s', ()) ∧
      line ≠ ascii "NOT_FOUND" ∧ counterReply line = .err .notNumber true ∧
      s'.clock = s.clock ∧ s'.slot = s.slot := by
  have hchange : counterChange verb (formatInt delta) s.nextCas (s.slot full) =
      (s.slot full, .invalidDelta) := by
    rw [counterChange, parseUnsigned_formatInt_neg hdelta]
  refine ⟨_, _, count_timed rate s full hverb hchange, by decide, by decide, rfl,
    slot_keyed_eq s full ?_⟩
  rw [hchange]

end Count

/-! ## The commands that set an expiration time -/

section Expiration

variable (rate : Nat) (s : Server) (full : Key)

/-- The expiration time of a lifetime. -/
theorem storageDeadlineAt_seconds (ttl : Duration) :
    s.storageDeadlineAt rate (formatNat (seconds ttl)) = deadlineAt rate s.clock (seconds ttl) := by
  have hlt := seconds_lt ttl
  have hint : (Int64.ofInt (seconds ttl)).toInt = seconds ttl :=
    Int64.toInt_ofInt_of_le (by omega) (by omega)
  rw [Server.storageDeadlineAt, parseInt_formatNat hlt]
  simp only [Option.map_some, Option.getD_some, hint]

/-- A storage command on the server. -/
theorem execAt_storage (verb : Bytes) (ttl : Duration) (value : Bytes) :
    (timed rate).exec s ⟨storageWords verb full (seconds ttl) value.length, some value⟩ =
      s.keyed full (storageChange verb 0 (deadlineAt rate s.clock (seconds ttl)) value) := by
  have hzero : (parseDigits (ascii "0")).getD 0 = 0 := by decide
  rw [← storageDeadlineAt_seconds]
  change s.keyed full (storageChange verb ((parseDigits (ascii "0")).getD 0) _ value) = _
  rw [hzero]

variable {value : Bytes} {ttl : Duration}

/-- `set` leaves its value, with its expiration time. -/
theorem set_timed (hvalue : value.length ≤ maxAlloc) (ttl : Duration) :
    ∃ s' item, (opened (timed rate)).set full ttl value s () = (.ok (), s', ()) ∧
      s'.clock = s.clock ∧ s'.items full = some item ∧ item.entry.data = value ∧
      item.expires = deadlineAt rate s.clock (seconds ttl) ∧
      ∀ other, other ≠ full → s'.slot other = s.slot other := by
  have hchange : ∀ cas slot, storageChange (ascii "set") 0 (deadlineAt rate s.clock (seconds ttl))
      value cas slot = (some ⟨⟨0, value, cas, hvalue⟩, deadlineAt rate s.clock (seconds ttl)⟩,
        .stored) := by
    intro cas slot
    rw [storageChange_set, newItem_of_le hvalue]
    rfl
  have hset : (opened (timed rate)).set full ttl value s () =
      (expect (ascii "STORED") .setFailed (Line.stored.text ++ Words.crlf), (s.keyed full
        (storageChange (ascii "set") 0 (deadlineAt rate s.clock (seconds ttl)) value)).1, ()) := by
    change (expect (ascii "STORED") .setFailed (((timed rate).exec s _).2.text ++ Words.crlf),
      ((timed rate).exec s _).1, ()) = _
    rw [execAt_storage]
    simp only [Server.keyed, hchange]
  refine ⟨_, ⟨⟨0, value, s.nextCas, hvalue⟩, deadlineAt rate s.clock (seconds ttl)⟩, hset, rfl, ?_,
    rfl, rfl, fun other hother => Server.slot_keyed_ne s hother _⟩
  simp only [Server.keyed, hchange, Function.update_self]

/-- A value that `set` has stored is one that a Go slice can hold. -/
theorem length_le_of_set {s' : Server}
    (h : (opened (timed rate)).set full ttl value s () = (.ok (), s', ())) :
    value.length ≤ maxAlloc := by
  by_contra hvalue
  have hchange : ∀ cas slot, storageChange (ascii "set") 0 (deadlineAt rate s.clock (seconds ttl))
      value cas slot = (none, .tooLarge) := by
    intro cas slot
    rw [storageChange_set, newItem, dif_neg hvalue]
    rfl
  have hset : ((opened (timed rate)).set full ttl value s ()).1 =
      expect (ascii "STORED") .setFailed (Line.tooLarge.text ++ Words.crlf) := by
    change expect (ascii "STORED") .setFailed (((timed rate).exec s _).2.text ++ Words.crlf) = _
    rw [execAt_storage]
    simp only [Server.keyed, hchange]
  rw [h] at hset
  exact absurd (show Outcome.ok () = _ from hset) (by decide)

/-- `add` that stores does what `set` does. -/
theorem add_eq_set {s' : Server}
    (h : (opened (timed rate)).add full ttl value s () = (.ok true, s', ())) :
    (opened (timed rate)).set full ttl value s () = (.ok (), s', ()) := by
  have hadd : (opened (timed rate)).add full ttl value s () =
      (addReply ((s.keyed full (storageChange (ascii "add") 0
        (deadlineAt rate s.clock (seconds ttl)) value)).2.text ++ Words.crlf),
        (s.keyed full (storageChange (ascii "add") 0
          (deadlineAt rate s.clock (seconds ttl)) value)).1, ()) := by
    change (addReply (((timed rate).exec s _).2.text ++ Words.crlf),
      ((timed rate).exec s _).1, ()) = _
    rw [execAt_storage]
  have hset : (opened (timed rate)).set full ttl value s () =
      (expect (ascii "STORED") .setFailed ((s.keyed full (storageChange (ascii "set") 0
        (deadlineAt rate s.clock (seconds ttl)) value)).2.text ++ Words.crlf),
        (s.keyed full (storageChange (ascii "set") 0
          (deadlineAt rate s.clock (seconds ttl)) value)).1, ()) := by
    change (expect (ascii "STORED") .setFailed (((timed rate).exec s _).2.text ++ Words.crlf),
      ((timed rate).exec s _).1, ()) = _
    rw [execAt_storage]
  rw [h] at hadd
  cases hslot : s.slot full with
  | some item =>
    -- the key exists, and `add` says so
    have hrefused : addReply (Line.notStored.text ++ Words.crlf) = .ok false := by decide
    simp only [Server.keyed, hslot, storageChange_add_some, hrefused] at hadd
    cases (Prod.mk.inj hadd).1
  | none =>
    have hsame : s.keyed full (storageChange (ascii "add") 0
        (deadlineAt rate s.clock (seconds ttl)) value) =
          s.keyed full (storageChange (ascii "set") 0
            (deadlineAt rate s.clock (seconds ttl)) value) := by
      simp only [Server.keyed, hslot, storageChange_add_none, storageChange_set]
    rw [hsame] at hadd
    rcases Prod.mk.inj hadd with ⟨hline, hstate⟩
    rw [hset, ← hstate]
    unfold addReply at hline
    split at hline
    · rename_i hstored
      rw [expect, if_pos hstored]
    · split at hline <;> cases hline

/-- After the number of a counter is known, its expiration time is set. -/
theorem counted_number {n : Nat} (hn : n < 2 ^ 63) (httl : 0 < ttl) {item : Item}
    (hitem : s.slot full = some item) :
    ∃ s', (opened (timed rate)).counted full ttl (formatNat n) s () =
        (.ok (Int64.ofInt n), s', ()) ∧ s'.clock = s.clock ∧
      s'.items full = some { item with expires := deadlineAt rate s.clock (seconds ttl) } ∧
      ∀ other, other ≠ full → s'.slot other = s.slot other := by
  have hint : (Int64.ofInt (seconds ttl)).toInt = seconds ttl := by
    have hlt := seconds_lt ttl
    exact Int64.toInt_ofInt_of_le (by omega) (by omega)
  have htouch : touchChangeAt rate (formatNat (seconds ttl)) s.clock (s.slot full) =
      (some { item with expires := deadlineAt rate s.clock (seconds ttl) }, .touched) := by
    rw [touchChangeAt, parseInt_formatNat (seconds_lt ttl), hitem]
    dsimp only
    rw [hint]
  let s' := (s.keyed full fun _ => touchChangeAt rate (formatNat (seconds ttl)) s.clock).1
  refine ⟨s', ?_, rfl, ?_, fun other hother => Server.slot_keyed_ne s hother _⟩
  · have hask : (opened (timed rate)).ask
        [ascii "touch", full, formatNat (seconds ttl)] s () =
          (.ok (Line.touched.text ++ Words.crlf), s', ()) := by
      have hline : (s.keyed full fun _ => touchChangeAt rate (formatNat (seconds ttl))
          s.clock).2 = .touched := by
        rw [Server.keyed, htouch]
      rw [← hline]
      rfl
    have hreply : touchReply (Line.touched.text ++ Words.crlf) = .ok () := by decide
    unfold Link.counted
    rw [(counterReply_formatNat hn).2]
    simp only [Action.andThen, Action.done, if_pos httl, hask, hreply]
  · change Function.update s.items full _ full = _
    rw [Function.update_self]
    exact congrArg Prod.fst htouch

/-- A reply that is not a number ends the call. -/
theorem counted_error {line : Bytes} {err : MemcachedError} {bad : Bool}
    (h : counterReply line = .err err bad) (ttl : Duration) :
    (opened (timed rate)).counted full ttl line s () = (.err err bad, s, ()) := by
  unfold Link.counted
  rw [h]
  rfl

end Expiration

end Memcached
end GoforjCache
