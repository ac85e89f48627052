import GoforjCache.Memcached.Simulation

/-!
# Memcached - The store over whole commands

The link `commands` of this module hands each command to the server as a whole and gets the
reply that belongs to it; a connection is open or closed.  The link `opened` is the same one
without closed connections.  On an idle connection, and for keys of one word, the link of the source
does what `commands` does and leaves the connection idle; so the stores go through the same
states.

Main results:

- Theorem `wire_ask`, `wire_storage`, `wire_cas`, `wire_get`,
  `wire_gets`: the exchanges of the source on an idle connection.
- Theorem `linkSim_wire`, `linkSim_opened`: the link of the source, over idle connections,
  and the link `commands`, over open ones.
-/

namespace GoforjCache
namespace Memcached

open Foundation Foundation.Decimal
open Words (crlf words fields trimSpace unwords)

/-! ## The link of whole commands -/

/-- An exchange on an open connection. -/
def onOpen {σ α : Type} (f : σ → α × σ) : Action σ Bool α := fun s alive =>
  if alive then (.ok (f s).1, (f s).2, true) else (.err .io true, s, false)

/-- The reply line of a command and the state after it. -/
def answer {σ : Type} (B : Backend σ) (c : Command) (s : σ) : Bytes × σ :=
  ((B.exec s c).2.text ++ crlf, (B.exec s c).1)

/-- The link of whole commands; a connection is open or closed. -/
def commands {σ : Type} (B : Backend σ) : Link σ Bool where
  fresh := true
  close _ := false
  get full := onOpen fun s => ((B.lookup s full).map Entry.data, s)
  gets full := onOpen fun s => ((B.lookup s full).map fun e => (e.data, formatNat e.cas), s)
  ask ws := onOpen (answer B ⟨ws, none⟩)
  storage verb full exptime value :=
    onOpen (answer B ⟨storageWords verb full exptime value.length, some value⟩)
  cas full exptime version :=
    onOpen (answer B ⟨storageWords (ascii "cas") full exptime 0 ++ [version], some []⟩)

/-- The link of whole commands on connections that stay open. -/
def opened {σ : Type} (B : Backend σ) : Link σ Unit where
  fresh := ()
  close _ := ()
  get full := fun s _ => (.ok ((B.lookup s full).map Entry.data), s, ())
  gets full := fun s _ =>
    (.ok ((B.lookup s full).map fun e => (e.data, formatNat e.cas)), s, ())
  ask ws := fun s _ => (.ok (answer B ⟨ws, none⟩ s).1, (answer B ⟨ws, none⟩ s).2, ())
  storage verb full exptime value := fun s _ =>
    let r := answer B ⟨storageWords verb full exptime value.length, some value⟩ s
    (.ok r.1, r.2, ())
  cas full exptime version := fun s _ =>
    let r := answer B ⟨storageWords (ascii "cas") full exptime 0 ++ [version], some []⟩ s
    (.ok r.1, r.2, ())

theorem version_of_map {σ : Type} {B : Backend σ} {s : σ} {full : Key} {value version : Bytes}
    (h : (B.lookup s full).map (fun e => (e.data, formatNat e.cas)) =
      some (value, version)) : ∃ n, version = formatNat n := by
  rcases Option.map_eq_some_iff.mp h with ⟨e, _, heq⟩
  exact ⟨e.cas, (congrArg Prod.snd heq).symm⟩

/-- Open connections stay open. -/
theorem linkSim_opened {σ : Type} (B : Backend σ) :
    LinkSim (fun _ => true) (opened B) (commands B) where
  fresh := rfl
  get _ := fun _ _ => rfl
  gets _ := fun _ _ => rfl
  ask _ _ := fun _ _ => rfl
  storage _ _ _ _ := fun _ _ => rfl
  cas _ _ _ := fun _ _ => rfl
  version hresult := version_of_map (Outcome.ok.inj hresult)

/-! ## Command lines as words -/

/-- The server reads the words of a command line back. -/
theorem words_command {ws : List Bytes} (h : ∀ w ∈ ws, IsWord w) : words (unwords ws) = ws :=
  Words.words_unwords fun w hw => ⟨(h w hw).1, (h w hw).2.1⟩

theorem newline_notMem_command {ws : List Bytes} (h : ∀ w ∈ ws, IsWord w) : 10 ∉ unwords ws :=
  Words.notMem_unwords (by decide) fun w hw => (h w hw).2.2

/-! ## Exchanges on idle connections -/

section Idle

variable {σ : Type} {B : Backend σ}

/-- An exchange of whole commands is given by what happens on an open connection. -/
theorem Sim.of_onOpen {α : Type} {f : σ → α × σ} {f' : Action σ Conn α}
    (hopen : ∀ s, f' s (.idle true) = (.ok (f s).1, (f s).2, .idle true))
    (hclosed : ∀ s, f' s (.idle false) = (.err .io true, s, .idle false)) :
    Sim id Conn.idle (onOpen f) f' := by
  intro s alive
  cases alive with
  | false => exact hclosed s
  | true => exact hopen s

/-- A complete command, its reply, and nothing else on the connection. -/
theorem andThen_send_readLine {text : Bytes} {s : σ} {r : σ × Line} (hne : text ≠ [])
    (h : serveOne B s text = some (r.1, r.2.text ++ crlf, [])) :
    (send B text).andThen (fun _ => readLine) s (.idle true) =
      (.ok (r.2.text ++ crlf), r.1, .idle true) := by
  rw [Action.andThen_ok (send_idle hne h)]
  exact readLine_line r.2.single true r.1

/-- A command of one line. -/
theorem wire_ask {ws : List Bytes} (hws : ∀ w ∈ ws, IsWord w) (hframing : framing ws = .single) :
    Sim id Conn.idle ((commands B).ask ws) ((wire B).ask ws) := by
  have hwords := words_command hws
  apply Sim.of_onOpen
  · intro s
    have hserve := serveOne_single (B := B) (newline_notMem_command hws)
      (by rw [hwords]; exact hframing) s
    rw [hwords] at hserve
    exact andThen_send_readLine (append_crlf_ne_nil _) hserve
  · exact fun s => rfl

variable {verb : Bytes} {full : Key} {exptime : Nat}

/-- A storage command whose line and data block are written one after the other. -/
theorem wire_storage {value : Bytes}
    (hws : ∀ w ∈ storageWords verb full exptime value.length, IsWord w)
    (hframing : framing (storageWords verb full exptime value.length) = .storage value.length) :
    Sim id Conn.idle ((commands B).storage verb full exptime value)
      ((wire B).storage verb full exptime value) := by
  have hline := newline_notMem_command hws
  have hwords := words_command hws
  have hframing' := hframing
  rw [← hwords] at hframing'
  apply Sim.of_onOpen
  · intro s
    -- the server waits for the data block, and then for its end
    have hshort : ([] : Bytes).length < value.length + 2 := Nat.zero_lt_succ _
    have hfirst := serveOne_storage_none (B := B) hline hframing' hshort s
    rw [List.append_nil] at hfirst
    have hsecond :=
      serveOne_storage_none (B := B) hline hframing' (Nat.lt_add_of_pos_right two_pos) s
    have hthird := serveOne_storage (B := B) hline hframing' s
    rw [hwords, ← List.append_assoc] at hthird
    have hsend1 := send_beginning hfirst
    have hsend2 := send_middle hsecond
    have hsend3 := send_end (by decide) hthird
    change ((send B (unwords (storageWords verb full exptime value.length) ++ crlf)).andThen
      fun _ => (send B value).andThen fun _ => (send B crlf).andThen fun _ => readLine) s
        (.idle true) = _
    rw [Action.andThen_ok hsend1, Action.andThen_ok hsend2, Action.andThen_ok hsend3]
    exact readLine_line (B.exec s ⟨_, some value⟩).2.single true _
  · exact fun s => rfl

/-- The `cas` command, written at once. -/
theorem wire_cas {version : Bytes}
    (hws : ∀ w ∈ storageWords (ascii "cas") full exptime 0 ++ [version], IsWord w)
    (hframing : framing (storageWords (ascii "cas") full exptime 0 ++ [version]) = .storage 0) :
    Sim id Conn.idle ((commands B).cas full exptime version)
      ((wire B).cas full exptime version) := by
  have hwords := words_command hws
  apply Sim.of_onOpen
  · intro s
    have hframing' : framing (words (unwords (storageWords (ascii "cas") full exptime 0 ++
        [version]))) = .storage ([] : Bytes).length := by
      rw [hwords]
      exact hframing
    have hserve := serveOne_storage (B := B) (newline_notMem_command hws) hframing' s
    rw [hwords] at hserve
    exact andThen_send_readLine (append_crlf_ne_nil _) hserve
  · exact fun s => rfl

/-! ## Retrieval on idle connections -/

/-- A number is one field of a line. -/
theorem printable_formatNat (n : Nat) : Words.Printable (formatNat n) := by
  intro b hb
  have hdigit := mem_formatNat hb
  exact ⟨UInt8.le_trans (by decide) hdigit.1, UInt8.lt_of_le_of_lt hdigit.2 (by decide)⟩

theorem fields_formatNat (n : Nat) : fields (formatNat n) = [formatNat n] :=
  Words.fields_of_printable (printable_formatNat n) (formatNat_ne_nil n)

theorem blockHeader_head (cas : Bool) (full : Key) (e : Entry) :
    ∃ rest, blockHeader cas full e = 86 :: rest :=
  ⟨_, rfl⟩

theorem blockHeader_last (cas : Bool) (full : Key) (e : Entry) :
    ∃ n x, blockHeader cas full e = x ++ formatNat n := by
  cases cas with
  | false =>
    rcases Words.unwords_concat [ascii "VALUE", full, formatNat e.flags]
      (formatNat e.data.length) with ⟨x, hx⟩
    exact ⟨e.data.length, x, hx⟩
  | true =>
    rcases Words.unwords_concat [ascii "VALUE", full, formatNat e.flags,
      formatNat e.data.length] (formatNat e.cas) with ⟨x, hx⟩
    exact ⟨e.cas, x, hx⟩

/-- The header is what the client keeps of its line. -/
theorem trimSpace_blockHeader (cas : Bool) (full : Key) (e : Entry) :
    trimSpace (blockHeader cas full e ++ crlf) = blockHeader cas full e := by
  rcases blockHeader_head cas full e with ⟨rest, hhead⟩
  rcases blockHeader_last cas full e with ⟨n, x, hlast⟩
  apply Words.trimSpace_append_crlf
  · rw [hhead]
    exact List.cons_ne_nil _ _
  · rw [hhead]
    exact Words.spaceLen_of_printable (by decide) rest
  · rw [hlast, List.reverse_append]
    cases hdigits : (formatNat n).reverse with
    | nil => exact absurd (List.reverse_eq_nil_iff.mp hdigits) (formatNat_ne_nil n)
    | cons b digits =>
      have hmem : b ∈ formatNat n := by
        rw [← List.mem_reverse, hdigits]
        exact List.mem_cons_self
      exact Words.spaceLenBack_of_printable (printable_formatNat n b hmem) _

theorem newline_notMem_blockHeader (hfull : OneWord full) (cas : Bool) (e : Entry) :
    10 ∉ blockHeader cas full e := by
  apply newline_notMem_command
  intro w hw
  simp only [headerWords, List.mem_append, List.mem_cons, List.not_mem_nil, or_false] at hw
  rcases hw with (rfl | rfl | rfl | rfl) | hcas
  · decide
  · exact hfull.isWord
  · exact isWord_formatNat _
  · exact isWord_formatNat _
  · cases cas with
    | false => exact absurd hcas List.not_mem_nil
    | true =>
      rw [List.mem_singleton.mp hcas]
      exact isWord_formatNat _

theorem fields_blockHeader (hfull : OneWord full) (cas : Bool) (e : Entry) :
    ∃ w, fields (blockHeader cas full e) =
      [ascii "VALUE", w, formatNat e.flags, formatNat e.data.length] ++
        if cas then [formatNat e.cas] else [] := by
  rcases List.length_eq_one_iff.mp hfull.2.2 with ⟨w, hw⟩
  refine ⟨w, ?_⟩
  have hvalue : fields (ascii "VALUE") = [ascii "VALUE"] := by decide
  rw [blockHeader, Words.fields_unwords]
  cases cas <;> simp [headerWords, hvalue, hw, fields_formatNat]

/-- A retrieval command for a one-word key. -/
theorem retrieve_idle {cas : Bool} {accepts : List Bytes → Bool} (hfull : OneWord full)
    (hverb : IsWord verb) (hframing : framing [verb, full] = .retrieval cas [full])
    (haccepts : ∀ e, accepts (fields (blockHeader cas full e)) = true) (bad : Bool) (s : σ) :
    retrieve B verb accepts bad full s (.idle true) =
      (.ok ((B.lookup s full).map fun e => (e.data, fields (blockHeader cas full e))), s,
        .idle true) := by
  have hws : ∀ w ∈ [verb, full], IsWord w := by
    simp [hverb, hfull.isWord]
  have hserve := serveOne_retrieval (B := B) (newline_notMem_command hws)
    (by rw [words_command hws]; exact hframing) s
  rw [retrieve, Action.andThen_ok (send_idle (append_crlf_ne_nil _) hserve)]
  cases hlookup : B.lookup s full with
  | none =>
    have hreply : retrieved B s cas [full] = ascii "END" ++ crlf := by
      simp [retrieved, hlookup]
    rw [hreply, Action.andThen_ok (readLine_line (by decide) true s), if_pos rfl]
    rfl
  | some e =>
    have hreply : retrieved B s cas [full] =
        blockHeader cas full e ++ crlf ++ (e.data ++ crlf ++ (ascii "END" ++ crlf)) := by
      simp [retrieved, hlookup, block]
    have hread := readLine_reply (newline_notMem_blockHeader hfull cas e)
      (e.data ++ crlf ++ (ascii "END" ++ crlf)) true s
    have hend : blockHeader cas full e ++ crlf ≠ ascii "END" ++ crlf := by
      rcases blockHeader_head cas full e with ⟨rest, hhead⟩
      rw [hhead]
      intro heq
      exact absurd (List.cons.inj heq).1 (by decide)
    have hshort : e.data.length < 2 ^ 63 := lt_of_le_of_lt e.short (by decide)
    have hlength : (fields (blockHeader cas full e)).getD 3 [] = formatNat e.data.length := by
      rcases fields_blockHeader hfull cas e with ⟨w, hw⟩
      rw [hw]
      rfl
    have hblock := readBlock_reply
      (Int64.toInt_ofInt_of_le (by omega) (by omega)) e.short true s
    rw [hreply, Action.andThen_ok hread, if_neg hend, trimSpace_blockHeader,
      if_pos (haccepts e), hlength, parseInt_formatNat hshort]
    dsimp only
    rw [Action.andThen_ok hblock]
    rfl

/-- `Get` sees the entry of its own key. -/
theorem wire_get (hfull : OneWord full) :
    Sim id Conn.idle ((commands B).get full) ((wire B).get full) := by
  have haccepts : ∀ e, acceptsGet (fields (blockHeader false full e)) = true := by
    intro e
    rcases fields_blockHeader hfull false e with ⟨w, hw⟩
    rw [hw]
    rfl
  apply Sim.of_onOpen
  · intro s
    have hretrieve : retrieve B (ascii "get") acceptsGet false full s (.idle true) = _ :=
      retrieve_idle hfull (by decide) rfl haccepts false s
    refine (Action.andThen_ok hretrieve _).trans ?_
    cases B.lookup s full <;> rfl
  · exact fun s => rfl

/-- `LockRelease` sees the entry of its own key, with its version. -/
theorem wire_gets (hfull : OneWord full) :
    Sim id Conn.idle ((commands B).gets full) ((wire B).gets full) := by
  have hheader : ∀ e, acceptsGets (fields (blockHeader true full e)) = true ∧
      (fields (blockHeader true full e)).getD 4 [] = formatNat e.cas := by
    intro e
    rcases fields_blockHeader hfull true e with ⟨w, hw⟩
    rw [hw]
    exact ⟨rfl, rfl⟩
  apply Sim.of_onOpen
  · intro s
    have hretrieve : retrieve B (ascii "gets") acceptsGets true full s (.idle true) = _ :=
      retrieve_idle hfull (by decide) rfl (fun e => (hheader e).1) true s
    refine (Action.andThen_ok hretrieve _).trans ?_
    cases B.lookup s full with
    | none => rfl
    | some e =>
      simp only [Option.map_some, (hheader e).2]
      rfl
  · exact fun s => rfl

/-! ## Command lines -/

/-- A line that is no retrieval and announces a data block. -/
theorem framing_of_storageLength {args : List Bytes} {length : Nat} (hget : verb ≠ ascii "get")
    (hgets : verb ≠ ascii "gets") (hlength : storageLength verb args = some length) :
    framing (verb :: args) = .storage length := by
  rw [framing, if_neg fun h => hget h.1, if_neg fun h => hgets h.1, hlength]

theorem isSome_formatNat {n : Nat} (hn : n < 2 ^ 63) : (parseInt (formatNat n)).isSome = true := by
  rw [parseInt_formatNat hn]
  rfl

/-- The line of a storage command of the store. -/
theorem framing_storageWords (hverb : verb = ascii "set" ∨ verb = ascii "add") (full : Key)
    (hexptime : exptime < 2 ^ 63) (length : Nat) :
    framing (storageWords verb full exptime length) = .storage length := by
  have hflags : (parseDigits (ascii "0")).isSome = true := by decide
  have hexp := isSome_formatNat hexptime
  rcases hverb with rfl | rfl <;>
  · apply framing_of_storageLength (by decide) (by decide)
    rw [storageLength, if_pos ⟨by decide, by decide, hflags, hexp⟩, parseDigits_formatNat]

/-- The line of the `cas` command of the store. -/
theorem framing_cas (full : Key) (hexptime : exptime < 2 ^ 63) (version : Nat) :
    framing (storageWords (ascii "cas") full exptime 0 ++ [formatNat version]) = .storage 0 := by
  have hflags : (parseDigits (ascii "0")).isSome = true := by decide
  have hversion : (parseDigits (formatNat version)).isSome = true := by
    rw [parseDigits_formatNat]
    rfl
  have hlength : storageLength (ascii "cas") [full, ascii "0", formatNat exptime,
      formatNat 0, formatNat version] = some 0 := by
    rw [storageLength, if_pos ⟨rfl, hflags, isSome_formatNat hexptime, hversion⟩,
      parseDigits_formatNat]
  exact framing_of_storageLength (by decide) (by decide) hlength

theorem isWord_storageWords (hverb : IsWord verb) (hfull : OneWord full) (exptime length : Nat) :
    ∀ w ∈ storageWords verb full exptime length, IsWord w := by
  have hzero : IsWord (ascii "0") := by decide
  simp [storageWords, hverb, hfull.isWord, hzero, isWord_formatNat]

/-- On idle connections the link of the source is that of whole commands. -/
theorem linkSim_wire (B : Backend σ) : LinkSim Conn.idle (commands B) (wire B) where
  fresh := rfl
  get := wire_get
  gets := wire_gets
  ask := wire_ask
  storage hverb hfull hexptime value := by
    refine wire_storage (isWord_storageWords ?_ hfull _ _)
      (framing_storageWords hverb _ hexptime _)
    rcases hverb with rfl | rfl <;> decide
  cas hfull hexptime n := by
    refine wire_cas ?_ (framing_cas _ hexptime n)
    intro w hw
    rcases List.mem_append.mp hw with hword | hlast
    · exact isWord_storageWords (by decide) hfull _ _ w hword
    · rw [List.mem_singleton.mp hlast]
      exact isWord_formatNat n
  version := by
    intro full s alive value version hresult
    cases alive with
    | false => exact absurd hresult (by simp [commands, onOpen])
    | true => exact version_of_map (Outcome.ok.inj hresult)

end Idle

end Memcached
end GoforjCache
