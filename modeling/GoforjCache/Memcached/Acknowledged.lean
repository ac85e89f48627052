import GoforjCache.Memcached.Logged
import GoforjCache.Memcached.Rules

/-!
# Memcached - Success means acknowledged

A command is acknowledged if the line that the store reads after it is, as a whole, one of the
replies by which the protocol says that this command was done, or definitely not applied:
`STORED`, `NOT_STORED`, `EXISTS`, `NOT_FOUND`, `DELETED`, `TOUCHED`, `OK` or a number, each for its
own commands.  The server may send any line of the protocol after any command, error lines included.

Each call of the store looks at the first bytes of the lines that it reads, which tell the lines of
the protocol apart.  `Delete` takes any line for success.

Main results:

- Theorem `ReplyLine.eq_of_isPrefixOf`: a line of the protocol that starts with the word of a reply
  is that reply.
- Theorem `exec_acknowledged`: a call without an error had every command acknowledged, if it is
  not `Delete` or `DeleteMany` or the server acknowledges deletes.
- Theorem `deleteMany_removes`: over a server that acknowledges deletes, and whose acknowledged
  deletes delete, the keys of `DeleteMany` are gone.
-/

namespace GoforjCache
namespace Memcached

open Foundation Foundation.Decimal
open Words (crlf trimSpace)

/-! ## Acknowledgements -/

/-- The replies that say that a command was done or was not applied, by the first word of the
command. -/
def replies : List (Bytes × List Bytes) :=
  [(ascii "set", [ascii "STORED", ascii "NOT_STORED"]),
    (ascii "add", [ascii "STORED", ascii "NOT_STORED"]),
    (ascii "cas", [ascii "STORED", ascii "EXISTS", ascii "NOT_FOUND"]),
    (ascii "incr", [ascii "NOT_FOUND"]),
    (ascii "decr", [ascii "NOT_FOUND"]),
    (ascii "touch", [ascii "TOUCHED", ascii "NOT_FOUND"]),
    (ascii "delete", [ascii "DELETED", ascii "NOT_FOUND"]),
    (ascii "flush_all", [ascii "OK"])]

/-- The replies to a command. -/
def repliesTo (verb : Bytes) : List Bytes := (replies.lookup verb).getD []

/-- The line acknowledges a command with the given first word: it is one of its replies, or the
number that a counter command returns. -/
def Acknowledges (verb line : Bytes) : Prop :=
  (∃ w ∈ repliesTo verb, line = w ++ crlf) ∨
    (verb ∈ [ascii "incr", ascii "decr"] ∧ ∃ n, line = formatNat n ++ crlf)

/-- The command was answered, by a line that acknowledges it or by a retrieval's own reply. -/
def Sent.Acknowledged (e : Sent) : Prop :=
  match e.answer with
  | some (.line line) => Acknowledges (e.words.headD []) line
  | some .value | some .ended => True
  | none => False

/-! ## Lines of the protocol -/

/-- The words of the table. -/
def statusWords : List Bytes := replies.flatMap Prod.snd

/-- How the other lines start: errors, and the answer to `version`. -/
def otherStarts : List Bytes :=
  [ascii "ERROR", ascii "CLIENT_ERROR ", ascii "SERVER_ERROR ", ascii "VERSION "]

/-- A line of the protocol, other than those of a retrieval. -/
inductive ReplyLine : Bytes → Prop
  | status {w : Bytes} (h : w ∈ statusWords) : ReplyLine (w ++ crlf)
  | number (n : Nat) : ReplyLine (formatNat n ++ crlf)
  | other {start : Bytes} (h : start ∈ otherStarts) (rest : Bytes) :
    ReplyLine (start ++ (rest ++ crlf))

theorem mem_statusWords {verb w : Bytes} (h : w ∈ repliesTo verb) : w ∈ statusWords := by
  unfold repliesTo at h
  cases hlookup : replies.lookup verb with
  | none => simp [hlookup] at h
  | some row =>
    rw [hlookup] at h
    rcases List.lookup_eq_some_iff.mp hlookup with ⟨before, after, hsplit, _⟩
    rw [statusWords, hsplit]
    simp only [List.flatMap_append, List.flatMap_cons, List.mem_append]
    exact .inr (.inl h)

/-- A line of the protocol that starts with the word of a reply is that reply. -/
theorem ReplyLine.eq_of_isPrefixOf {line w : Bytes} (hline : ReplyLine line) (hw : w ∈ statusWords)
    (h : w.isPrefixOf line = true) : line = w ++ crlf := by
  -- the first two bytes tell the words from numbers and from the other lines
  have htake : line.take 2 = w.take 2 := by
    have hlength : ∀ w ∈ statusWords, 2 ≤ w.length := by decide +kernel
    rcases List.isPrefixOf_iff_prefix.mp h with ⟨rest, rfl⟩
    exact List.take_append_of_le_length (hlength w hw)
  cases hline with
  | @status word hmem =>
    have hall : ∀ w ∈ statusWords, ∀ word ∈ statusWords,
        w.isPrefixOf (word ++ crlf) = true → word ++ crlf = w ++ crlf := by
      decide +kernel
    exact hall w hw word hmem h
  | number n =>
    have hletter : ∀ w ∈ statusWords, 57 < (w.take 2).headD 0 := by decide +kernel
    have hlt := hletter w hw
    rw [← htake] at hlt
    cases hdigits : formatNat n with
    | nil => exact absurd hdigits (formatNat_ne_nil n)
    | cons c cs =>
      rw [hdigits] at hlt
      have hdigit : c ∈ formatNat n := hdigits ▸ List.mem_cons_self
      exact absurd hlt (UInt8.not_lt.mpr (mem_formatNat hdigit).2)
  | @other start hstart rest =>
    have hne : ∀ start ∈ otherStarts, 2 ≤ start.length ∧ ∀ w ∈ statusWords,
        start.take 2 ≠ w.take 2 := by
      decide +kernel
    rw [List.take_append_of_le_length (hne start hstart).1] at htake
    exact absurd htake ((hne start hstart).2 w hw)

/-! ## What the store takes for an answer -/

/-- The trimmed line answers a counter command. -/
def Counts (line : Bytes) : Prop := line = ascii "NOT_FOUND" ∨ (parseInt line).isSome = true

/-- A text that starts with a letter other than `N` does not. -/
theorem not_counts_cons {b : UInt8} (hb : 65 ≤ b ∧ b ≠ 78) (rest : Bytes) :
    ¬Counts (b :: rest) := by
  have hdigit : digitValue b = none :=
    if_neg fun h => absurd (UInt8.le_trans hb.1 h.2) (by decide)
  have hsign : b ≠ 45 ∧ b ≠ 43 := by
    constructor <;> rintro rfl <;> exact absurd hb.1 (by decide)
  rintro (hnone | hnumber)
  · exact hb.2 (Option.some.inj (congrArg List.head? hnone))
  · simp [parseInt, parseDigits, hsign, hdigit] at hnumber

theorem counts_of_counterReply {line : Bytes} {n : Int64} (h : counterReply line = .ok n) :
    Counts line := by
  unfold counterReply at h
  split at h
  · cases h
  · split at h
    · rename_i hparse
      exact .inr (by rw [hparse]; rfl)
    · cases h

section Answers

variable {verb line : Bytes} (hline : ReplyLine line)

include hline

/-- A line acknowledges a command if it starts with one of its replies. -/
theorem acknowledges_of_isPrefixOf {w : Bytes} (hw : w ∈ repliesTo verb)
    (h : w.isPrefixOf line = true) : Acknowledges verb line :=
  .inl ⟨w, hw, hline.eq_of_isPrefixOf (mem_statusWords hw) h⟩

theorem acknowledges_of_expect (verb : Bytes) {start : Bytes} {fail : Bytes → MemcachedError}
    {u : Unit} (hstart : start ∈ repliesTo verb) (h : expect start fail line = .ok u) :
    Acknowledges verb line := by
  unfold expect at h
  split at h
  · rename_i hexpected
    exact acknowledges_of_isPrefixOf hline hstart hexpected
  · cases h

theorem acknowledges_of_addReply {b : Bool} (h : addReply line = .ok b) :
    Acknowledges (ascii "add") line := by
  unfold addReply at h
  split at h
  · rename_i hstored
    exact acknowledges_of_isPrefixOf hline (by decide) hstored
  · split at h
    · rename_i hkept
      exact acknowledges_of_isPrefixOf hline (by decide) hkept
    · cases h

theorem acknowledges_of_releaseReply {b : Bool} (h : releaseReply line = .ok b) :
    Acknowledges (ascii "cas") line := by
  unfold releaseReply at h
  split at h
  · rename_i hmissed
    rcases (Bool.or_eq_true _ _).mp hmissed with hexists | hnone
    · exact acknowledges_of_isPrefixOf hline (by decide) hexists
    · exact acknowledges_of_isPrefixOf hline (by decide) hnone
  · split at h
    · rename_i hstored
      exact acknowledges_of_isPrefixOf hline (by decide) hstored
    · cases h

theorem acknowledges_of_touchReply {u : Unit} (h : touchReply line = .ok u) :
    Acknowledges (ascii "touch") line := by
  unfold touchReply at h
  split at h
  · rename_i hreply
    rcases (Bool.or_eq_true _ _).mp hreply with htouched | hnone
    · exact acknowledges_of_isPrefixOf hline (by decide) htouched
    · exact acknowledges_of_isPrefixOf hline (by decide) hnone
  · cases h

theorem acknowledges_of_counts (hverb : verb ∈ [ascii "incr", ascii "decr"])
    (h : Counts (trimSpace line)) : Acknowledges verb line := by
  cases hline with
  | @status w hw =>
    have hcounts : ∀ w ∈ statusWords, trimSpace (w ++ crlf) = ascii "NOT_FOUND" ∨
        (parseInt (trimSpace (w ++ crlf))).isSome = true → w = ascii "NOT_FOUND" := by
      decide +kernel
    have hreply : ∀ verb ∈ [ascii "incr", ascii "decr"], ascii "NOT_FOUND" ∈ repliesTo verb := by
      decide +kernel
    rw [hcounts w hw h]
    exact .inl ⟨_, hreply verb hverb, rfl⟩
  | number n => exact .inr ⟨hverb, n, rfl⟩
  | @other start hstart rest =>
    have hletter : ∀ start ∈ otherStarts, ∃ b ∈ start.head?,
        (65 ≤ b ∧ b ≠ 78) ∧ 33 ≤ b ∧ b < 127 := by
      decide +kernel
    rcases hletter start hstart with ⟨b, hb, hother, hprintable⟩
    rcases List.head?_eq_some_iff.mp hb with ⟨tail, rfl⟩
    have hfirst := Words.trimSpace_begins
      (Words.spaceLen_of_printable hprintable (tail ++ (rest ++ crlf)))
    rw [List.cons_append] at h
    generalize trimSpace (b :: (tail ++ (rest ++ crlf))) = text at h hfirst
    cases text with
    | nil => simp [Counts, parseInt, ascii] at h
    | cons x text =>
      rw [(List.cons_prefix_cons.mp hfirst).1] at h
      exact absurd h (not_counts_cons hother text)

end Answers

/-! ## Exchanges -/

/-- Whatever the command and the state of the server and the connection are, a line that the store
reads is one of the protocol. -/
structure Speaks {σ γ : Type} (L : Link σ γ) : Prop where
  ask : ∀ {ws s c line}, (L.ask ws s c).1 = .ok line → ReplyLine line
  storage : ∀ {verb full exptime value s c line},
    (L.storage verb full exptime value s c).1 = .ok line → ReplyLine line
  cas : ∀ {full exptime version s c line},
    (L.cas full exptime version s c).1 = .ok line → ReplyLine line

section Sent

variable {σ γ α : Type}

/-- Every command of the log was acknowledged. -/
def AllSent (s : σ × List Sent) : Prop := ∀ e ∈ s.2, e.Acknowledged

/-- An exchange adds its command to the log. -/
theorem ensures_record {ws : List Bytes} {answer : α → Answer} {f : Action σ γ α} {P : α → Prop}
    (h : ∀ s c a, (f s c).1 = .ok a → P a → Sent.Acknowledged ⟨ws, some (answer a)⟩) :
    Action.Ensures AllSent (record ws answer f) fun a s => P a → AllSent s := by
  intro s c a hs ha hP e he
  have hresult : (f s.1 c).1 = .ok a := ha
  have hanswer : (f s.1 c).1.result?.map answer = some (answer a) := by
    rw [hresult]
    rfl
  rcases List.mem_append.mp he with hold | hlast
  · exact hs e hold
  · rw [List.mem_singleton.mp hlast, hanswer]
    exact h s.1 c a hresult hP

/-- A retrieval is answered by what it finds. -/
theorem ensures_retrieval (ws : List Bytes) (f : Action σ γ (Option α)) :
    Action.Ensures AllSent (record ws retrievalAnswer f) fun _ => AllSent := by
  have hall : Action.Ensures AllSent (record ws retrievalAnswer f) fun _ s => True → AllSent s :=
    ensures_record fun _ _ a _ _ => by cases a <;> trivial
  exact hall.mono (fun _ hs => hs) fun _ _ hs => hs trivial

/-- A line that is read and interpreted. -/
theorem ensures_line {β : Type} {ws : List Bytes} {f : Action σ γ Bytes}
    {interpret : Bytes → Outcome β} (h : ∀ s c line, (f s c).1 = .ok line → ∀ b,
      interpret line = .ok b → Acknowledges (ws.headD []) line) :
    Action.Ensures AllSent ((record ws .line f).andThen fun line => .done (interpret line))
      fun _ => AllSent := by
  have hrecord : Action.Ensures AllSent (record ws .line f) fun line s =>
      (∃ b, interpret line = .ok b) → AllSent s :=
    ensures_record fun s c line hline hr => hr.elim fun b hb => h s c line hline b hb
  exact hrecord.andThen fun line => Action.Ensures.done fun b hb _ hs => hs ⟨b, hb⟩

variable {L : Link σ γ}

/-- `Delete` goes on with any line. -/
theorem ensures_delete {full : Key} (hdelete : ∀ s c line,
      (L.ask [ascii "delete", full] s c).1 = .ok line → Acknowledges (ascii "delete") line) :
    Action.Ensures AllSent (L.logged.delete full) fun _ => AllSent := by
  have hask : Action.Ensures AllSent (L.logged.ask [ascii "delete", full]) fun _ s =>
      True → AllSent s :=
    ensures_record fun s c line hline _ => hdelete s c line hline
  exact hask.andThen fun _ => Action.Ensures.done fun _ _ _ hs => hs trivial

/-- `incr` comes to a number only with a line that answers the counter command. -/
theorem counts_of_counted {full : Key} {ttl : Duration} {line : Bytes} {s : σ × List Sent} {c : γ}
    {n : Int64} (h : (L.logged.counted full ttl line s c).1 = .ok n) : Counts line := by
  cases hreply : counterReply line with
  | ok m => exact counts_of_counterReply hreply
  | err e bad => simp [Link.counted, Action.andThen, Action.done, hreply] at h
  | blocked => simp [Link.counted, Action.andThen, Action.done, hreply] at h

variable (hL : Speaks L)

include hL

theorem ensures_set (full : Key) (ttl : Duration) (value : Bytes) :
    Action.Ensures AllSent (L.logged.set full ttl value) fun _ => AllSent :=
  ensures_line fun _ _ _ hline _ hr =>
    acknowledges_of_expect (hL.storage hline) (ascii "set") (by decide) hr

theorem ensures_add (full : Key) (ttl : Duration) (value : Bytes) :
    Action.Ensures AllSent (L.logged.add full ttl value) fun _ => AllSent :=
  ensures_line fun _ _ _ hline _ hr => acknowledges_of_addReply (hL.storage hline) hr

/-- `LockRelease` ends after the retrieval or after the line that answers `cas`. -/
theorem ensures_release (full : Key) (owner : Bytes) :
    Action.Ensures AllSent (L.logged.release full owner) fun _ => AllSent := by
  refine (ensures_retrieval _ _).andThen ?_
  rintro (_ | ⟨value, version⟩)
  · exact Action.Ensures.done fun _ _ _ hs => hs
  · dsimp only
    split
    · exact Action.Ensures.done fun _ _ _ hs => hs
    · exact ensures_line fun _ _ _ hline _ hr => acknowledges_of_releaseReply (hL.cas hline) hr

/-- The counter command is acknowledged if `incr` goes on with its line. -/
theorem ensures_count {verb : Bytes} (hverb : verb ∈ [ascii "incr", ascii "decr"])
    (full : Key) (delta : Int64) :
    Action.Ensures AllSent (L.logged.count verb full delta) fun line s =>
      Counts line → AllSent s := by
  refine (ensures_record (P := fun line => Counts (trimSpace line)) ?_).andThen fun line =>
    Action.Ensures.done ?_
  · intro _ _ line hline hcounts
    exact acknowledges_of_counts (hL.ask hline) hverb hcounts
  · intro _ hr s hs hcounts
    cases hr
    exact hs hcounts

theorem ensures_counted (full : Key) (ttl : Duration) (line : Bytes) :
    Action.Ensures AllSent (L.logged.counted full ttl line) fun _ => AllSent := by
  refine (Action.Ensures.done fun _ _ _ hs => hs).andThen fun n => ?_
  split
  · have htouch : Action.Ensures AllSent
        (L.logged.ask [ascii "touch", full, formatNat (seconds ttl)]) fun touchLine s =>
          touchReply touchLine = .ok () → AllSent s :=
      ensures_record fun _ _ _ hline hr => acknowledges_of_touchReply (hL.ask hline) hr
    refine htouch.andThen fun touchLine => ?_
    exact (Action.Ensures.done fun _ hr _ hs => hs hr).andThen fun _ =>
      Action.Ensures.done fun _ _ _ hs => hs
  · exact Action.Ensures.done fun _ _ _ hs => hs

theorem ensures_flush : Action.Ensures AllSent L.logged.flush fun _ => AllSent :=
  ensures_line fun _ _ _ hline _ hr =>
    acknowledges_of_expect (hL.ask hline) (ascii "flush_all") (by decide) hr

end Sent

/-! ## Calls -/

/-- The calls that send `delete` commands. -/
def sendsDeletes : Op → Bool
  | .delete _ | .deleteMany _ => true
  | _ => false

/-- The server answers every delete of a key of the store by `DELETED` or `NOT_FOUND`. -/
def DeletesAnswered {σ γ : Type} (L : Link σ γ) (cfg : Config) : Prop :=
  ∀ key s c line, (L.ask [ascii "delete", cfg.cacheKey key] s c).1 = .ok line →
    line = ascii "DELETED" ++ crlf ∨ line = ascii "NOT_FOUND" ++ crlf

theorem acknowledges_delete_iff {line : Bytes} : Acknowledges (ascii "delete") line ↔
    line = ascii "DELETED" ++ crlf ∨ line = ascii "NOT_FOUND" ++ crlf := by
  have hverb : ascii "delete" ∉ [ascii "incr", ascii "decr"] := by decide
  have hreplies : repliesTo (ascii "delete") = [ascii "DELETED", ascii "NOT_FOUND"] := by decide
  unfold Acknowledges
  rw [hreplies, or_iff_left fun h => hverb h.1]
  simp only [List.mem_cons, List.not_mem_nil, or_false, exists_eq_or_imp, exists_eq_left]

/-- Every command in the logs of the servers was acknowledged. -/
def AllLogs {σ : Type} (servers : Addr → σ × List Sent) : Prop := ∀ addr, AllSent (servers addr)

section Calls

variable {σ γ α : Type} {L : Link σ γ} {cfg : Config} {dials : UInt32 → Addr → Bool}

theorem ensures_exchange {f : Action (σ × List Sent) γ α}
    (hf : Action.Ensures AllSent f fun _ => AllSent) :
    Call.Ensures AllLogs (exchange L.logged cfg dials f) fun _ => AllLogs := by
  have hcond : Action.Ensures AllSent f fun _ s => True → AllSent s :=
    hf.mono (fun _ hs => hs) fun _ _ hs _ => hs
  refine Call.Ensures.withConn fun addr _ => ?_
  exact (hcond.onServers addr).mono (fun _ hS => hS) fun _ _ hS => hS trivial

theorem ensures_deleteCall (hdelete : DeletesAnswered L cfg) (key : Key) :
    Call.Ensures AllLogs (delete L.logged cfg dials key) fun _ => AllLogs :=
  ensures_exchange (ensures_delete fun s c line hline =>
    acknowledges_delete_iff.mpr (hdelete key s c line hline))

theorem ensures_deleteMany (hdelete : DeletesAnswered L cfg) (keys : List Key) :
    Call.Ensures AllLogs (deleteMany L.logged cfg dials keys) fun _ => AllLogs := by
  induction keys with
  | nil => exact Call.Ensures.done fun _ _ _ hS => hS
  | cons key keys ih => exact (ensures_deleteCall hdelete key).andThen fun _ => ih

variable (hL : Speaks L)

include hL

/-- The rounds of `incr`, by induction on the fuel. -/
theorem ensures_incr {verb : Bytes} (hverb : verb ∈ [ascii "incr", ascii "decr"]) (key : Key)
    (delta : Int64) (fuel : Nat) (ttl : Duration) :
    Call.Ensures AllLogs (incr L.logged cfg dials verb key delta fuel ttl) fun _ => AllLogs := by
  induction fuel generalizing ttl with
  | zero =>
    intro S n _ hn
    cases hn
  | succ fuel ih =>
    refine Call.Ensures.withConn fun addr _ => ?_
    refine ((ensures_count hL hverb _ delta).onServers addr).andThen fun line => ?_
    split
    · -- The line is `NOT_FOUND`, which acknowledges the command.
      rename_i hline
      have hset : Call.Ensures AllLogs
          (set L.logged cfg dials key (ascii "0") (cfg.defaultTTL.resolve ttl)) fun _ => AllLogs :=
        ensures_exchange (ensures_set hL _ _ _)
      exact (hset.nested.mono (fun S hS => hS (.inl hline)) fun _ _ hS => hS).andThen fun _ =>
        (ih _).nested
    · refine Action.Ensures.of_result (fun S c n hn => counts_of_counted hn) fun hcounts => ?_
      have hcounted : Action.Ensures AllSent (L.logged.counted (cfg.cacheKey key)
          (cfg.defaultTTL.resolve ttl) line) fun _ s => True → AllSent s :=
        (ensures_counted hL _ _ line).mono (fun _ hs => hs) fun _ _ hs _ => hs
      exact (hcounted.onServers addr).mono (fun S hS => hS hcounts) fun _ _ hS => hS trivial

theorem ensures_increment (fuel : Nat) (key : Key) (delta : Int64) (ttl : Duration) :
    Call.Ensures AllLogs (increment L.logged cfg dials fuel key delta ttl) fun _ => AllLogs := by
  unfold increment
  split
  · exact ensures_incr hL (by decide) key _ fuel ttl
  · exact ensures_incr hL (by decide) key delta fuel ttl

theorem ensures_decrementCall (fuel : Nat) (key : Key) (delta : Int64) (ttl : Duration) :
    Call.Ensures AllLogs (decrementCall L.logged cfg dials fuel key delta ttl)
      fun _ => AllLogs := by
  unfold decrementCall
  split
  · exact ensures_increment hL fuel key _ ttl
  · exact ensures_incr hL (by decide) key delta fuel ttl

/-- A call keeps the logs acknowledged, if the deletes that it may send are. -/
theorem ensures_exec (fuel : Nat) {op : Op}
    (hdelete : sendsDeletes op = true → DeletesAnswered L cfg) :
    Call.Ensures AllLogs (exec L.logged cfg dials fuel op) fun _ => AllLogs := by
  cases op with
  | get key => exact (ensures_exchange (ensures_retrieval _ _)).map _
  | set key value ttl => exact (ensures_exchange (ensures_set hL _ _ value)).map _
  | add key value ttl => exact (ensures_exchange (ensures_add hL _ _ value)).map _
  | increment key delta ttl => exact (ensures_increment hL fuel key delta ttl).map _
  | decrement key delta ttl => exact (ensures_decrementCall hL fuel key delta ttl).map _
  | delete key => exact (ensures_deleteCall (hdelete rfl) key).map _
  | deleteMany keys => exact (ensures_deleteMany (hdelete rfl) keys).map _
  | flush => exact (ensures_exchange (ensures_flush hL)).map _
  | lockAcquire key owner ttl => exact (ensures_exchange (ensures_add hL _ _ owner)).map _
  | lockRelease key owner => exact (ensures_exchange (ensures_release hL _ owner)).map _

end Calls

/-- Every command that the call sends is acknowledged. -/
def Acknowledged {σ γ : Type} (L : Link σ γ) (cfg : Config) (dials : UInt32 → Addr → Bool)
    (fuel : Nat) (op : Op) (S : State σ γ) : Prop :=
  ∀ addr, ∀ e ∈ sent L cfg dials fuel op S addr, e.Acknowledged

/-- A call without an error had every command acknowledged, if the deletes that it may send are. -/
theorem exec_acknowledged {σ γ : Type} {L : Link σ γ} (hL : Speaks L) {cfg : Config}
    {dials : UInt32 → Addr → Bool} {fuel : Nat} {op : Op}
    (hdelete : sendsDeletes op = true → DeletesAnswered L cfg) {S : State σ γ} {res : Res}
    (h : (exec L cfg dials fuel op S).1 = some (.ok res)) : Acknowledged L cfg dials fuel op S := by
  rw [exec_eq_exec_logged] at h
  refine ensures_exec hL fuel hdelete S.unlogged res ?_ h
  intro addr e he
  exact absurd he List.not_mem_nil

/-! ## Deleted keys -/

/-- What a server does with deletes, for a notion of what it stores: an acknowledged delete leaves
the key not stored, and no delete stores anything. -/
structure Honest {σ γ : Type} (L : Link σ γ) (Stored : σ → Key → Prop) : Prop where
  removed : ∀ {full s c line}, (L.ask [ascii "delete", full] s c).1 = .ok line →
    Acknowledges (ascii "delete") line → ¬Stored (L.ask [ascii "delete", full] s c).2.1 full
  kept : ∀ {full other s c}, Stored (L.ask [ascii "delete", full] s c).2.1 other → Stored s other

section Deleted

variable {σ γ : Type} {L : Link σ γ} {Stored : σ → Key → Prop} {cfg : Config}
  {dials : UInt32 → Addr → Bool} {addr : Addr}

theorem ensures_removed (hhonest : Honest L Stored) (hdelete : DeletesAnswered L cfg)
    (K : Key → Prop) (key : Key) :
    Action.Ensures (fun s => ∀ full, K full → ¬Stored s full) (L.delete (cfg.cacheKey key))
      fun _ s => ∀ full, K full ∨ full = cfg.cacheKey key → ¬Stored s full := by
  have hask : Action.Ensures (fun s => ∀ full, K full → ¬Stored s full)
      (L.ask [ascii "delete", cfg.cacheKey key])
      fun _ s => ∀ full, K full ∨ full = cfg.cacheKey key → ¬Stored s full := by
    rintro s c line hs hline full (hold | rfl)
    · exact fun hstored => hs full hold (hhonest.kept hstored)
    · exact hhonest.removed hline (acknowledges_delete_iff.mpr (hdelete key s c line hline))
  exact hask.andThen fun _ => Action.Ensures.done fun _ _ _ hs => hs

/-- The keys of `DeleteMany` join those that are gone, one after the other. -/
theorem ensures_deleteMany_removed (dials : UInt32 → Addr → Bool) (hhonest : Honest L Stored)
    (hdelete : DeletesAnswered L cfg) (haddrs : ∀ a ∈ cfg.addrs, a = addr) (keys : List Key)
    (K : Key → Prop) :
    Call.Ensures (fun servers => ∀ full, K full → ¬Stored (servers addr) full)
      (deleteMany L cfg dials keys) fun _ servers =>
        ∀ full, K full ∨ full ∈ keys.map cfg.cacheKey → ¬Stored (servers addr) full := by
  induction keys generalizing K with
  | nil =>
    refine Call.Ensures.done fun _ _ servers hK full hfull => ?_
    exact hK full (hfull.resolve_right List.not_mem_nil)
  | cons key keys ih =>
    have hfirst : Call.Ensures (fun servers => ∀ full, K full → ¬Stored (servers addr) full)
        (delete L cfg dials key) fun _ servers =>
          ∀ full, K full ∨ full = cfg.cacheKey key → ¬Stored (servers addr) full := by
      refine Call.Ensures.withConn fun a ha => ?_
      rw [haddrs a ha]
      exact (ensures_removed hhonest hdelete K key).onServer addr
    have hall := hfirst.andThen fun _ => ih _
    simp only [or_assoc] at hall
    simp only [List.map_cons, List.mem_cons]
    exact hall

/-- Over one server that acknowledges deletes, and whose acknowledged deletes delete, the keys of
`DeleteMany` are gone after a call without an error. -/
theorem deleteMany_removes (hhonest : Honest L Stored) (hdelete : DeletesAnswered L cfg)
    (haddrs : ∀ a ∈ cfg.addrs, a = addr) {fuel : Nat} {keys : List Key} {S : State σ γ} {res : Res}
    (h : (exec L cfg dials fuel (.deleteMany keys) S).1 = some (.ok res)) {key : Key}
    (hkey : key ∈ keys) :
    ¬Stored ((exec L cfg dials fuel (.deleteMany keys) S).2.servers addr) (cfg.cacheKey key) := by
  have hcall := ((ensures_deleteMany_removed dials hhonest hdelete haddrs keys
    fun _ => False).map fun _ => Res.done) S res (fun _ hnone => hnone.elim) h
  exact hcall _ (.inr (List.mem_map_of_mem hkey))

end Deleted

/-! ## Main result -/

section Main

variable {σ γ : Type} {L : Link σ γ} {cfg : Config}

/-- One connection in every pool, in any state. -/
def pooled (s : σ) (c : γ) : State σ γ := ⟨fun _ => s, fun _ => [c], 0⟩

/-- `DeleteMany` of one key returns without an error, whatever line it reads, and that line is the
answer to its command. -/
theorem deleteMany_pooled (haddrs : cfg.addrs ≠ []) (dials : UInt32 → Addr → Bool) (fuel : Nat)
    {key : Key} {s : σ} {c : γ} {line : Bytes}
    (h : (L.ask [ascii "delete", cfg.cacheKey key] s c).1 = .ok line) :
    (exec L cfg dials fuel (.deleteMany [key]) (pooled s c)).1 = some (.ok .done) ∧
      ∃ addr, ⟨[ascii "delete", cfg.cacheKey key], some (.line line)⟩ ∈
        sent L cfg dials fuel (.deleteMany [key]) (pooled s c) addr := by
  rcases List.exists_cons_of_ne_nil haddrs with ⟨addr, rest, hcons⟩
  rcases hask : L.ask [ascii "delete", cfg.cacheKey key] s c with ⟨outcome, s', c'⟩
  rw [hask] at h
  cases (show outcome = .ok line from h)
  rw [exec_eq_exec_logged]
  constructor
  · simp [exec, deleteMany, delete, Call.map, Call.andThen, Call.done, exchange, withConn, acquire,
      acquireFrom, hcons, pooled, State.unlogged, onServer, Link.delete, Action.andThen,
      Action.done, Link.logged, record, hask]
  · refine ⟨addr, ?_⟩
    simp [sent, exec, deleteMany, delete, Call.map, Call.andThen, Call.done, exchange, withConn,
      acquire, acquireFrom, hcons, pooled, State.unlogged, onServer, Link.delete, Action.andThen,
      Action.done, Link.logged, record, hask, State.release_servers, Outcome.result?]

end Main

/-- A Memcached server deletes what it says it deletes. -/
theorem honest_memcached :
    Honest (commands memcached) fun s full => (s.slot full).isSome = true where
  removed := by
    intro full s c line hline _
    cases c with
    | false => cases hline
    | true =>
      have hslot : ((s.keyed full fun _ => deleteChange).1.slot full) = none := by
        rw [Server.slot_keyed_self]
        cases s.slot full <;> rfl
      exact fun hstored => absurd hslot (Option.isSome_iff_ne_none.mp hstored)
  kept := by
    intro full other s c hstored
    cases c with
    | false => exact hstored
    | true =>
      have hafter : ((s.keyed full fun _ => deleteChange).1.slot other).isSome = true := hstored
      by_cases hother : other = full
      · subst hother
        rw [Server.slot_keyed_self] at hafter
        cases hslot : s.slot other with
        | none => simp [hslot, deleteChange] at hafter
        | some item => rfl
      · rwa [Server.slot_keyed_ne s hother] at hafter

/-- The replies of a Memcached server other than numbers. -/
def Line.fixed : List Line :=
  [stored, notStored, exists', notFound, touched, deleted, ok, version, error, tooLarge,
    invalidDelta, invalidExptime, nonNumeric]

theorem replyLine_fixed {line : Line} (h : line ∈ Line.fixed) : ReplyLine (line.text ++ crlf) := by
  have hstart : ∀ {line : Line}, (∃ start ∈ otherStarts, start.isPrefixOf line.text = true) →
      ReplyLine (line.text ++ crlf) := by
    rintro line ⟨start, hstart, hbegins⟩
    rcases List.isPrefixOf_iff_prefix.mp hbegins with ⟨rest, hrest⟩
    rw [← hrest, List.append_assoc]
    exact .other hstart rest
  simp only [Line.fixed, List.mem_cons, List.not_mem_nil, or_false] at h
  rcases h with rfl | rfl | rfl | rfl | rfl | rfl | rfl | rfl | rfl | rfl | rfl | rfl | rfl
  iterate 7 exact .status (by decide +kernel)
  all_goals exact hstart (by decide +kernel)

section Lines

variable {verb arg data version : Bytes} {flags cas now : Nat} {expires : Option Nat}
  {slot : Option Item}

theorem storageChange_fixed : (storageChange verb flags expires data cas slot).2 ∈ Line.fixed := by
  unfold storageChange written
  repeat' split
  all_goals simp [Line.fixed]

theorem casChange_fixed : (casChange flags expires data version cas slot).2 ∈ Line.fixed := by
  unfold casChange written
  repeat' split
  all_goals simp [Line.fixed]

theorem touchChange_fixed : (touchChange arg now slot).2 ∈ Line.fixed := by
  unfold touchChange
  repeat' split
  all_goals simp [Line.fixed]

theorem deleteChange_fixed : (deleteChange slot).2 ∈ Line.fixed := by
  unfold deleteChange
  split <;> simp [Line.fixed]

theorem replyLine_counterChange : ReplyLine ((counterChange verb arg cas slot).2.text ++ crlf) := by
  unfold counterChange
  dsimp only
  repeat' split
  all_goals first
    | apply replyLine_fixed; simp [Line.fixed]; done
    | exact .number _

end Lines

/-- A Memcached server keeps to the protocol. -/
theorem replyLine_exec (s : Server) (c : Command) : ReplyLine ((s.exec c).2.text ++ crlf) := by
  have herror : ReplyLine (Line.error.text ++ crlf) := replyLine_fixed (by simp [Line.fixed])
  unfold Server.exec
  split
  · exact replyLine_fixed storageChange_fixed
  · exact replyLine_fixed casChange_fixed
  · split
    · exact replyLine_counterChange
    · split
      · exact replyLine_fixed touchChange_fixed
      · exact herror
  · split
    · exact replyLine_fixed deleteChange_fixed
    · exact herror
  · split
    · exact replyLine_fixed (by simp [Line.fixed])
    · split
      · exact replyLine_fixed (by simp [Line.fixed])
      · exact herror
  · exact herror

theorem speaks_memcached : Speaks (commands memcached) := by
  have hanswer : ∀ {command s c line}, (onOpen (answer memcached command) s c).1 = .ok line →
      ReplyLine line := by
    intro command s c line h
    cases c with
    | false => cases h
    | true =>
      cases h
      exact replyLine_exec s command
  exact ⟨hanswer, hanswer, hanswer⟩

theorem deletesAnswered_memcached (cfg : Config) : DeletesAnswered (commands memcached) cfg := by
  intro key s c line h
  cases c with
  | false => cases h
  | true =>
    cases h
    change (deleteChange (s.slot (cfg.cacheKey key))).2.text ++ crlf = _ ∨
      (deleteChange (s.slot (cfg.cacheKey key))).2.text ++ crlf = _
    cases s.slot (cfg.cacheKey key) with
    | none => exact .inr rfl
    | some item => exact .inl rfl

/-- The store after a value was set. -/
def afterSetOver {γ : Type} (L : Link Server γ) : State Server γ :=
  (exec L sampleConfig allDials 1 (.set (ascii "a") (ascii "xyz") 0)
    (State.init (fun _ => sampleServer) 0)).2

/-- A server that answers deletes by an error line. -/
def refusing : Backend Server where
  lookup := memcached.lookup
  exec s c :=
    if c.words.headD [] = ascii "delete" then
      (s, ⟨ascii "SERVER_ERROR temporarily unavailable", by decide⟩)
    else memcached.exec s c

end Memcached
end GoforjCache
