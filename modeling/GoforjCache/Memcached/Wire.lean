import GoforjCache.Core.Types
import GoforjCache.Foundation.Decimal
import GoforjCache.Foundation.Words

/-!
# Memcached - The text protocol on one connection

A server of the Memcached text protocol reads command lines.  A `get` or `gets` line names
one or more keys and is answered by one `VALUE` block for each key that is present, and
`END`; a storage command is followed by a data block; every command but these two is answered
by one line.  What the commands mean is left open: a `Backend` is any server with this framing.

The client writes to the connection and reads from it.  The server answers as soon as a command is
complete, and the client's reads take the bytes in the order in which the server sent them.

Main results:

- Theorem `serveOne_retrieval`, `serveOne_single`, `serveOne_storage`: what the
  server does with one complete command.
- Theorem `send_idle`: on an idle connection a complete command leaves its reply and nothing
  else.
- Theorem `readLine_reply`, `readBlock_reply`: what the client reads of a reply.
-/

namespace GoforjCache
namespace Memcached

open Foundation Foundation.Decimal
open Words (crlf cutLine stripReturn words fields trimSpace)

/-! ## Servers -/

/-- `maxAlloc` of the Go runtime on 64-bit platforms, the greatest length of a byte slice. -/
def maxAlloc : Nat := 2 ^ 48

/-- What a server holds for a key. -/
structure Entry where
  flags : Nat
  data : Bytes
  cas : Nat
  short : data.length ≤ maxAlloc

/-- The text of a reply line. -/
structure Line where
  text : Bytes
  single : 10 ∉ text

/-- A command: the words of its line, and its data block if it is a storage command. -/
structure Command where
  words : List Bytes
  data : Option Bytes

/-- What the commands of a server mean. -/
structure Backend (σ : Type) where
  lookup : σ → Key → Option Entry
  exec : σ → Command → σ × Line

/-- How a command line goes on. -/
inductive Framing where
  /-- The keys to retrieve, and whether their versions are asked for. -/
  | retrieval (cas : Bool) (keys : List Bytes)
  /-- A data block of the given length follows. -/
  | storage (length : Nat)
  | single
deriving DecidableEq

/-- The verbs that a data block follows. -/
def storageVerbs : List Bytes :=
  [ascii "set", ascii "add", ascii "replace", ascii "append", ascii "prepend", ascii "cas"]

/-- The length of the data block that a storage line announces: its arguments are the key, the
flags, the expiration, the length and, for `cas`, a version. -/
def storageLength (verb : Bytes) : List Bytes → Option Nat
  | [_, flags, exptime, length] =>
    if verb ∈ storageVerbs ∧ verb ≠ ascii "cas" ∧ (parseDigits flags).isSome ∧
        (parseInt exptime).isSome then parseDigits length
    else none
  | [_, flags, exptime, length, cas] =>
    if verb = ascii "cas" ∧ (parseDigits flags).isSome ∧
        (parseInt exptime).isSome ∧ (parseDigits cas).isSome then
      parseDigits length
    else none
  | _ => none

/-- How a command line goes on, by its words. -/
def framing : List Bytes → Framing
  | [] => .single
  | verb :: args =>
    if verb = ascii "get" ∧ args ≠ [] then .retrieval false args
    else if verb = ascii "gets" ∧ args ≠ [] then .retrieval true args
    else
      match storageLength verb args with
      | some length => .storage length
      | none => .single

/-- The words of the header of a `VALUE` block. -/
def headerWords (cas : Bool) (key : Bytes) (e : Entry) : List Bytes :=
  [ascii "VALUE", key, formatNat e.flags, formatNat e.data.length] ++
    if cas then [formatNat e.cas] else []

/-- The header of a `VALUE` block, without the end of its line. -/
def blockHeader (cas : Bool) (key : Bytes) (e : Entry) : Bytes :=
  Words.unwords (headerWords cas key e)

/-- A `VALUE` block. -/
def block (cas : Bool) (key : Bytes) (e : Entry) : Bytes :=
  blockHeader cas key e ++ crlf ++ (e.data ++ crlf)

section Serve

variable {σ : Type} (B : Backend σ)

/-- The reply to a `get` or `gets` line. -/
def retrieved (s : σ) (cas : Bool) (keys : List Bytes) : Bytes :=
  (keys.flatMap fun key =>
    match B.lookup s key with
    | some e => block cas key e
    | none => []) ++ (ascii "END" ++ crlf)

/-- The server takes one command from its input, if it is complete: the new state, the reply, and
the rest of the input. -/
def serveOne (s : σ) (input : Bytes) : Option (σ × Bytes × Bytes) :=
  match cutLine input with
  | none => none
  | some (line, rest) =>
    let ws := words (stripReturn line)
    match framing ws with
    | .retrieval cas keys => some (s, retrieved B s cas keys, rest)
    | .single =>
      let r := B.exec s ⟨ws, none⟩
      some (r.1, r.2.text ++ crlf, rest)
    | .storage length =>
      if rest.length < length + 2 then none
      else if (rest.drop length).take 2 = crlf then
        let r := B.exec s ⟨ws, some (rest.take length)⟩
        some (r.1, r.2.text ++ crlf, rest.drop (length + 2))
      else some (s, ascii "CLIENT_ERROR bad data chunk" ++ crlf, rest.drop (length + 2))

/-- The server takes all complete commands; there are no more of them than bytes. -/
def serve : Nat → σ → Bytes → σ × Bytes × Bytes
  | 0, s, input => (s, [], input)
  | fuel + 1, s, input =>
    match serveOne B s input with
    | none => (s, [], input)
    | some (s', reply, rest) =>
      let r := serve fuel s' rest
      (r.1, reply ++ r.2.1, r.2.2)

end Serve

/-! ## Connections -/

/-- A connection: the bytes that the server has sent and the client has not read, the bytes that
the client has sent and the server has not taken, and whether it is open. -/
structure Conn where
  unread : Bytes
  pending : Bytes
  alive : Bool
deriving DecidableEq

/-- A connection on which nothing is under way. -/
def Conn.idle (alive : Bool) : Conn := ⟨[], [], alive⟩

/-- The errors of the store, with the texts they carry. -/
inductive MemcachedError where
  /-- `memcached: no addresses configured`. -/
  | noAddresses
  /-- `memcached dial failed: ...`. -/
  | dialFailed
  /-- An error of the connection. -/
  | io
  /-- `unexpected response: %s`. -/
  | unexpected (line : Bytes)
  /-- `parse length: ...`. -/
  | parseLength
  /-- `memcached set failed: %s`. -/
  | setFailed (line : Bytes)
  /-- `memcached add failed: %s`. -/
  | addFailed (line : Bytes)
  /-- `memcached lock release failed: %s`. -/
  | releaseFailed (line : Bytes)
  /-- The line of the server itself. -/
  | serverError (line : Bytes)
  /-- The error of `strconv.ParseInt`. -/
  | notNumber
  /-- `memcached touch failed: %s`. -/
  | touchFailed (line : Bytes)
  /-- `memcached flush failed: %s`. -/
  | flushFailed (line : Bytes)
  /-- `memcached readiness failed: %s`. -/
  | notReady (line : Bytes)
  /-- The panic of `make`. -/
  | panicked
deriving DecidableEq

/-- How an exchange on a connection ends: with a result, with an error that marks the connection as
bad or not, or not at all, because the client waits for bytes that nobody will send. -/
inductive Outcome (α : Type) where
  | ok (a : α)
  | err (e : MemcachedError) (bad : Bool)
  | blocked
deriving DecidableEq

/-- An exchange with a server in state `σ` over a connection `γ`. -/
abbrev Action (σ γ α : Type) := σ → γ → Outcome α × σ × γ

namespace Action

variable {σ γ α β : Type}

/-- End with an outcome. -/
def done (r : Outcome α) : Action σ γ α := fun s c => (r, s, c)

/-- One exchange after the other; an error ends both. -/
def andThen (f : Action σ γ α) (g : α → Action σ γ β) : Action σ γ β := fun s c =>
  match f s c with
  | (.ok a, s', c') => g a s' c'
  | (.err e bad, s', c') => (.err e bad, s', c')
  | (.blocked, s', c') => (.blocked, s', c')

/-- The rest of an exchange whose beginning went well. -/
theorem andThen_ok {f : Action σ γ α} {s s' : σ} {c c' : γ} {a : α} (h : f s c = (.ok a, s', c'))
    (g : α → Action σ γ β) : f.andThen g s c = g a s' c' := by
  rw [andThen, h]

end Action

section Client

variable {σ : Type} (B : Backend σ)

/-- Write to the connection; the server takes what is complete. -/
def send (text : Bytes) : Action σ Conn Unit := fun s c =>
  if c.alive then
    let input := c.pending ++ text
    let r := serve B input.length s input
    (.ok (), r.1, ⟨c.unread ++ r.2.1, r.2.2, true⟩)
  else (.err .io true, s, c)

/-- `ReadString('\n')`. -/
def readLine : Action σ Conn Bytes := fun s c =>
  match cutLine c.unread with
  | some (line, rest) => (.ok (line ++ [10]), s, ⟨rest, c.pending, c.alive⟩)
  | none => (.blocked, s, c)

/-- `io.ReadFull` into a slice of the given length. -/
def readFull (length : Nat) : Action σ Conn Bytes := fun s c =>
  if length ≤ c.unread.length then
    (.ok (c.unread.take length), s, ⟨c.unread.drop length, c.pending, c.alive⟩)
  else (.blocked, s, c)

/-- The rest of a `VALUE` block of the announced length, with the `END` line.  The call of
`make` panics for a length that no slice has, and the connection is not marked as bad then. -/
def readBlock (length : Int64) : Action σ Conn Bytes :=
  if length < 0 ∨ (maxAlloc : Int) < length.toInt then .done (.err .panicked false)
  else
    (readFull length.toInt.toNat).andThen fun value =>
      readLine.andThen fun _ => readLine.andThen fun _ => .done (.ok value)

end Client

/-! ## One command -/

section OneCommand

variable {σ : Type} {B : Backend σ}

/-- A server without input does nothing. -/
theorem serve_nil (n : Nat) (s : σ) : serve B n s [] = (s, [], []) := by
  cases n with
  | zero => rfl
  | succ n => rfl

variable {s s' : σ} {reply line text : Bytes}

/-- A server takes a single complete command. -/
theorem serve_of_serveOne {input : Bytes} (hne : input ≠ [])
    (h : serveOne B s input = some (s', reply, [])) :
    serve B input.length s input = (s', reply, []) := by
  cases input with
  | nil => exact absurd rfl hne
  | cons b input =>
    rw [List.length_cons, serve, h]
    dsimp only
    rw [serve_nil, List.append_nil]

/-- A server waits for the rest of a command. -/
theorem serve_of_serveOne_none {input : Bytes} (h : serveOne B s input = none) :
    serve B input.length s input = (s, [], input) := by
  cases input with
  | nil => rfl
  | cons b input => rw [List.length_cons, serve, h]

theorem cutLine_command (hline : 10 ∉ line) (rest : Bytes) :
    cutLine (line ++ crlf ++ rest) = some (line ++ [13], rest) := by
  have hreturn : (10 : UInt8) ∉ line ++ [13] := by
    rw [List.mem_append, not_or]
    exact ⟨hline, by decide⟩
  have hsplit : line ++ crlf ++ rest = (line ++ [13]) ++ 10 :: rest := by
    simp [crlf]
  rw [hsplit, Words.cutLine_append hreturn]

theorem serveOne_retrieval (hline : 10 ∉ line) {cas : Bool} {keys : List Bytes}
    (hframing : framing (words line) = .retrieval cas keys) (s : σ) :
    serveOne B s (line ++ crlf) = some (s, retrieved B s cas keys, []) := by
  have hcut := cutLine_command hline []
  rw [List.append_nil] at hcut
  rw [serveOne, hcut]
  dsimp only
  rw [Words.stripReturn_concat, hframing]

theorem serveOne_single (hline : 10 ∉ line) (hframing : framing (words line) = .single) (s : σ) :
    serveOne B s (line ++ crlf) =
      some ((B.exec s ⟨words line, none⟩).1, (B.exec s ⟨words line, none⟩).2.text ++ crlf, []) := by
  have hcut := cutLine_command hline []
  rw [List.append_nil] at hcut
  rw [serveOne, hcut]
  dsimp only
  rw [Words.stripReturn_concat, hframing]

/-- What the server does with a storage line and its data block. -/
theorem serveOne_storage {data : Bytes} (hline : 10 ∉ line)
    (hframing : framing (words line) = .storage data.length) (s : σ) :
    serveOne B s (line ++ crlf ++ (data ++ crlf)) =
      some ((B.exec s ⟨words line, some data⟩).1,
        (B.exec s ⟨words line, some data⟩).2.text ++ crlf, []) := by
  rw [serveOne, cutLine_command hline]
  dsimp only
  rw [Words.stripReturn_concat, hframing]
  have hlength : ¬(data ++ crlf).length < data.length + 2 := by simp [crlf]
  have hend : ((data ++ crlf).drop data.length).take 2 = crlf := by simp [crlf]
  have htake : (data ++ crlf).take data.length = data := by simp
  have hdrop : (data ++ crlf).drop (data.length + 2) = [] := by simp [crlf]
  simp only [hlength, hend, htake, hdrop, if_false, if_true]

/-- A storage line waits for its data block. -/
theorem serveOne_storage_none {rest : Bytes} (hline : 10 ∉ line) {length : Nat}
    (hframing : framing (words line) = .storage length) (hshort : rest.length < length + 2)
    (s : σ) : serveOne B s (line ++ crlf ++ rest) = none := by
  rw [serveOne, cutLine_command hline]
  dsimp only
  rw [Words.stripReturn_concat, hframing]
  simp only [hshort, if_true]

/-- A line with its end is not empty. -/
theorem append_crlf_ne_nil (line : Bytes) : line ++ crlf ≠ [] := by
  simp [crlf]

/-- A complete command on an idle connection leaves its reply and nothing else. -/
theorem send_idle (hne : text ≠ []) (h : serveOne B s text = some (s', reply, [])) :
    send B text s (.idle true) = (.ok (), s', ⟨reply, [], true⟩) := by
  have hserve := serve_of_serveOne hne h
  simp only [send, Conn.idle, List.nil_append, if_true, hserve]

/-- The beginning of a command waits on the connection. -/
theorem send_beginning (h : serveOne B s text = none) :
    send B text s (.idle true) = (.ok (), s, ⟨[], text, true⟩) := by
  have hserve := serve_of_serveOne_none h
  simp only [send, Conn.idle, List.nil_append, if_true, hserve]

/-- The middle of a command waits with its beginning. -/
theorem send_middle {before : Bytes} (h : serveOne B s (before ++ text) = none) :
    send B text s ⟨[], before, true⟩ = (.ok (), s, ⟨[], before ++ text, true⟩) := by
  have hserve := serve_of_serveOne_none h
  simp only [send, if_true, hserve, List.append_nil]

/-- The end of a command leaves its reply and nothing else. -/
theorem send_end {before : Bytes} (hne : text ≠ [])
    (h : serveOne B s (before ++ text) = some (s', reply, [])) :
    send B text s ⟨[], before, true⟩ = (.ok (), s', ⟨reply, [], true⟩) := by
  have hserve := serve_of_serveOne (List.append_ne_nil_of_right_ne_nil before hne) h
  simp only [send, if_true, hserve, List.nil_append]

end OneCommand

/-! ## Replies -/

section Replies

variable {σ : Type}

theorem readLine_reply {text : Bytes} (htext : 10 ∉ text) (rest : Bytes) (alive : Bool) (s : σ) :
    readLine s ⟨text ++ crlf ++ rest, [], alive⟩ = (.ok (text ++ crlf), s, ⟨rest, [], alive⟩) := by
  rw [readLine, cutLine_command htext]
  simp [crlf]

/-- The client reads the only line of a reply. -/
theorem readLine_line {text : Bytes} (htext : 10 ∉ text) (alive : Bool) (s : σ) :
    readLine s ⟨text ++ crlf, [], alive⟩ = (.ok (text ++ crlf), s, .idle alive) := by
  have hread := readLine_reply htext [] alive s
  rw [List.append_nil] at hread
  exact hread

/-- The client reads a data block and the end of the reply. -/
theorem readBlock_reply {data : Bytes} {length : Int64} (hlength : length.toInt = data.length)
    (hshort : data.length ≤ maxAlloc) (alive : Bool) (s : σ) :
    readBlock length s ⟨data ++ crlf ++ (ascii "END" ++ crlf), [], alive⟩ =
      (.ok data, s, .idle alive) := by
  have hrange : ¬(length < 0 ∨ (maxAlloc : Int) < length.toInt) := by
    rw [Int64.lt_iff_toInt_lt, hlength, Int64.toInt_zero]
    omega
  have hnat : length.toInt.toNat = data.length := by rw [hlength, Int.toNat_natCast]
  have hfull : readFull length.toInt.toNat s
      ⟨data ++ crlf ++ (ascii "END" ++ crlf), [], alive⟩ =
        (.ok data, s, ⟨crlf ++ (ascii "END" ++ crlf), [], alive⟩) := by
    rw [readFull, hnat, List.append_assoc]
    simp
  have hcrlf : readLine s ⟨[] ++ crlf ++ (ascii "END" ++ crlf), [], alive⟩ =
      (.ok ([] ++ crlf), s, ⟨ascii "END" ++ crlf, [], alive⟩) :=
    readLine_reply (by decide) _ alive s
  rw [List.nil_append] at hcrlf
  have hend : readLine s ⟨ascii "END" ++ crlf, [], alive⟩ =
      (.ok (ascii "END" ++ crlf), s, .idle alive) := readLine_line (by decide) alive s
  rw [readBlock, if_neg hrange, Action.andThen_ok hfull, Action.andThen_ok hcrlf,
    Action.andThen_ok hend]
  rfl

end Replies

end Memcached
end GoforjCache
