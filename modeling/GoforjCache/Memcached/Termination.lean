import GoforjCache.Memcached.CounterCalls

/-!
# Memcached - Counter calls that never end

`incr` asks one server for the key, and if it is missing, stores a zero at the next server that
the round-robin counter gives and starts again.  Every round moves the counter by two: the counter
commands go to the addresses of one parity of the counter, and the zeros to those of the other
parity.  If no address has both parities, the call looks for its zero where it never is.

Main results:

- Theorem `incr_add`: a call that ends has the same result with any more rounds.
- Theorem `counter_call_terminates_iff`: a call ends if and only if it asks a server that has
  the key, or that it stores a zero at.
- Theorem `reaches_of_odd`: this is so for an odd number of addresses.
- Theorem `two_addresses_never_end`: with two addresses, a call on a missing key never ends.
-/

namespace GoforjCache
namespace Memcached

open Function Foundation
open Nats.Counters (CounterOp)

/-! ## More rounds -/

section Fuel

variable {σ γ α β : Type}

/-- The rest of an exchange may be replaced where it ends. -/
theorem Action.andThen_congr {f : Action σ γ α} {g g' : α → Action σ γ β} {s : σ} {c : γ}
    (h : ∀ a s c, (g a s c).1 ≠ .blocked → g' a s c = g a s c)
    (hends : (f.andThen g s c).1 ≠ .blocked) : f.andThen g' s c = f.andThen g s c := by
  unfold Action.andThen at hends ⊢
  rcases hf : f s c with ⟨a | ⟨e, bad⟩ | _, s', c'⟩
  · rw [hf] at hends
    exact h a s' c' hends
  · rfl
  · rfl

variable {L : Link σ γ} {cfg : Config} {dials : UInt32 → Addr → Bool} {S S' : State σ γ}

/-- The body of a call may be replaced where it ends. -/
theorem withConn_congr {body body' : Addr → Action (State σ γ) γ α} {r : Except MemcachedError α}
    (h : ∀ addr T c, (body addr T c).1 ≠ .blocked → body' addr T c = body addr T c)
    (hends : withConn L cfg dials body S = (some r, S')) :
    withConn L cfg dials body' S = (some r, S') := by
  rw [← hends]
  unfold withConn at hends ⊢
  rcases hacquire : acquire L cfg dials S with ⟨e | ⟨addr, c⟩, T⟩
  · rfl
  · rw [hacquire] at hends
    dsimp only at hends ⊢
    rw [h addr T c]
    intro hblocked
    rcases hbody : body addr T c with ⟨o, T', c'⟩
    rw [hbody] at hends hblocked
    subst hblocked
    cases hends

variable {verb : Bytes} {key : Key} {delta : Int64}

/-- A call that ends has the same result with one more round. -/
theorem incr_succ {fuel : Nat} {ttl : Duration} {r : Except MemcachedError Int64}
    (h : incr L cfg dials verb key delta fuel ttl S = (some r, S')) :
    incr L cfg dials verb key delta (fuel + 1) ttl S = (some r, S') := by
  induction fuel generalizing ttl S S' r with
  | zero => cases h
  | succ fuel ih =>
    rw [incr] at h ⊢
    refine withConn_congr (fun addr T c => Action.andThen_congr ?_) h
    intro line T c
    -- only the nested call has one more round
    split
    · refine Action.andThen_congr fun _ T c hends => ?_
      unfold Call.nested at hends ⊢
      rcases hincr : incr L cfg dials verb key delta fuel (cfg.defaultTTL.resolve ttl) T with
        ⟨_ | r', T'⟩
      · rw [hincr] at hends
        exact absurd rfl hends
      · rw [ih hincr]
    · exact fun _ => rfl

/-- A call that ends has the same result with any more rounds. -/
theorem incr_add {fuel : Nat} {ttl : Duration} {r : Except MemcachedError Int64}
    (h : incr L cfg dials verb key delta fuel ttl S = (some r, S')) (more : Nat) :
    incr L cfg dials verb key delta (fuel + more) ttl S = (some r, S') := by
  induction more with
  | zero => exact h
  | succ more ih => exact incr_succ ih

end Fuel

/-! ## One round -/

section Round

variable {cfg : Config} {verb : Bytes} {key : Key} {delta : Int64} {ttl : Duration}
  {T : State Server Unit} {b b' : Addr}

/-- A round that finds the key, or whose delta the server refuses, ends the call. -/
theorem incr_found (hverb : verb = ascii "incr" ∨ verb = ascii "decr")
    (hb : cfg.address T.rr = some b)
    (h : delta < 0 ∨ (T.servers b).slot (cfg.cacheKey key) ≠ none) (fuel : Nat) :
    ∃ r T', incr (opened (timed 1)) cfg allDials verb key delta (fuel + 1) ttl T =
      (some r, T') := by
  have hrefused : ∀ {line : Bytes} {s : Server},
      (opened (timed 1)).count verb (cfg.cacheKey key) delta (T.servers b) () =
        (.ok line, s, ()) → line ≠ ascii "NOT_FOUND" → counterReply line = .err .notNumber true →
      ∃ r T', incr (opened (timed 1)) cfg allDials verb key delta (fuel + 1) ttl T =
        (some r, T') := by
    intro line s hcount hfound hreply
    rcases incr_last hb hcount hfound fuel with ⟨T', heq, -⟩
    rw [counted_error 1 s (cfg.cacheKey key) hreply] at heq
    exact ⟨_, T', heq⟩
  by_cases hdelta : 0 ≤ delta
  · rcases Option.ne_none_iff_exists'.mp (h.resolve_left (Int64.not_lt.mpr hdelta)) with
      ⟨item, hslot⟩
    cases hv : counterValue item.entry.data with
    | none =>
      rcases count_text 1 (T.servers b) (cfg.cacheKey key) hverb hdelta hslot hv with
        ⟨s, line, hcount, hfound, hreply, -⟩
      exact hrefused hcount hfound hreply
    | some v =>
      rcases count_number 1 (T.servers b) (cfg.cacheKey key) hverb hdelta hslot hv with
        ⟨s, item', hcount, -, hslot', -⟩
      rcases Nat.lt_or_ge (counterStep verb v delta.toInt.toNat) (2 ^ 63) with hsmall | hlarge
      · rcases counted_number 1 s (cfg.cacheKey key) hsmall (cfg.defaultTTL.resolve_pos ttl)
          hslot' with ⟨s', hcounted, -⟩
        rcases incr_last hb hcount (formatNat_ne_notFound _).1 fuel with ⟨T', heq, -⟩
        rw [hcounted] at heq
        exact ⟨_, T', heq⟩
      · exact hrefused hcount (formatNat_ne_notFound _).1 (counterReply_formatNat_of_le hlarge)
  · rcases count_negative 1 (T.servers b) (cfg.cacheKey key) hverb (Int64.not_le.mp hdelta) with
      ⟨s, line, hcount, hfound, hreply, -⟩
    exact hrefused hcount hfound hreply

/-- What a round that misses the key leaves: the counter is two further, and the key is new at one
server. -/
structure Missed (cfg : Config) (key : Key) (ttl : Duration) (b' : Addr)
    (T T' : State Server Unit) : Prop where
  rr : T'.rr = T.rr + 2
  clock : ∀ a, (T'.servers a).clock = (T.servers a).clock
  zero : ∃ item, (T'.servers b').items (cfg.cacheKey key) = some item ∧
    item.expires = deadlineAt 1 (T.servers b').clock (seconds (cfg.defaultTTL.resolve ttl))
  other : ∀ a, a ≠ b' → (T'.servers a).slot (cfg.cacheKey key) =
    (T.servers a).slot (cfg.cacheKey key)

/-- A round that misses the key goes on. -/
theorem incr_missed (hverb : verb = ascii "incr" ∨ verb = ascii "decr") (hdelta : 0 ≤ delta)
    (hb : cfg.address T.rr = some b) (hb' : cfg.address (T.rr + 1) = some b')
    (hmissing : (T.servers b).slot (cfg.cacheKey key) = none) (ttl : Duration) (fuel : Nat) :
    ∃ T₂ T', Missed cfg key ttl b' T T₂ ∧
      incr (opened (timed 1)) cfg allDials verb key delta (fuel + 1) ttl T =
        ((incr (opened (timed 1)) cfg allDials verb key delta fuel
          (cfg.defaultTTL.resolve ttl) T₂).1, T') := by
  rcases count_missing 1 (T.servers b) (cfg.cacheKey key) hverb hdelta hmissing with
    ⟨s, hcount, hclock, hslot⟩
  let servers := update T.servers b s
  have hsame : ∀ a, (servers a).clock = (T.servers a).clock ∧
      (servers a).slot = (T.servers a).slot := by
    intro a
    by_cases ha : a = b
    · subst ha
      have hserver : servers a = s := update_self _ _ _
      rw [hserver]
      exact ⟨hclock, hslot⟩
    · have hserver : servers a = T.servers a := update_of_ne ha _ _
      rw [hserver]
      exact ⟨rfl, rfl⟩
  rcases set_timed 1 (servers b') (cfg.cacheKey key) (show (ascii "0").length ≤ maxAlloc by decide)
    (cfg.defaultTTL.resolve ttl) with ⟨s', item, hset, hclock', hitem, -, hexpires, -⟩
  rcases incr_again hb hb' hcount hset fuel with ⟨T₂, T', hservers, hrr, heq, -⟩
  have hstored : T₂.servers b' = s' := by
    rw [hservers, update_self]
  have hother : ∀ a, a ≠ b' → T₂.servers a = servers a := by
    intro a ha
    rw [hservers, update_of_ne ha]
  rw [(hsame b').1] at hclock' hexpires
  refine ⟨T₂, T', ⟨hrr, fun a => ?_, ⟨item, by rw [hstored, hitem], hexpires⟩, fun a ha => ?_⟩, heq⟩
  · by_cases ha : a = b'
    · rw [ha, hstored, hclock']
    · rw [hother a ha, (hsame a).1]
  · rw [hother a ha, (hsame a).2]

end Round

/-! ## Whole calls -/

/-- The call ends: from some number of rounds on it has one result. -/
def Terminates (cfg : Config) (key : Key) (op : CounterOp) (S : State Server Conn) : Prop :=
  ∃ r fuel, ∀ more, (exec (wire memcached) cfg allDials (fuel + more) (toOp key op) S).1 = some r

/-- No server drops a record of this lifetime that it stores now. -/
def Lasting (cfg : Config) (ttl : Duration) (T : State Server Unit) : Prop :=
  ∀ a, ∀ item : Item, item.expires =
      deadline (T.servers a).clock (seconds (cfg.defaultTTL.resolve ttl)) →
    item.live (T.servers a).clock = true

/-- The call asks some server, now or after the counter has gone around, that has the key or at
which the call stores a zero. -/
def Reaches (cfg : Config) (key : Key) (T : State Server Unit) : Prop :=
  ∃ c b, c.toNat % 2 = T.rr.toNat % 2 ∧ cfg.address c = some b ∧
    ((T.servers b).slot (cfg.cacheKey key) ≠ none ∨
      ∃ c', c'.toNat % 2 ≠ T.rr.toNat % 2 ∧ cfg.address c' = some b)

/-- A nonempty list gives an address at every value of the counter. -/
theorem Config.exists_address {cfg : Config} (hne : cfg.addrs ≠ []) (rr : UInt32) :
    ∃ b, cfg.address rr = some b := by
  have hlength : rr.toNat % cfg.addrs.length < cfg.addrs.length :=
    Nat.mod_lt _ (List.length_pos_iff.mpr hne)
  rw [Config.address, List.head?_rotate hlength]
  exact ⟨_, List.getElem?_eq_getElem hlength⟩

section Call

variable {cfg : Config} {verb : Bytes} {key : Key} {delta : Int64} {ttl : Duration}
  {T : State Server Unit}

/-- The lifetime of a record that lasts lasts in the next round as well. -/
theorem Lasting.missed {b' : Addr} {T' : State Server Unit} (h : Lasting cfg ttl T)
    (hmissed : Missed cfg key ttl b' T T') : Lasting cfg (cfg.defaultTTL.resolve ttl) T' := by
  intro a
  rw [hmissed.clock a, cfg.defaultTTL.resolve_of_pos (cfg.defaultTTL.resolve_pos _)]
  exact h a

/-- The zero of a round is found in the next ones. -/
theorem Missed.holds {b' : Addr} {T' : State Server Unit} (hmissed : Missed cfg key ttl b' T T')
    (hlasting : Lasting cfg ttl T) : (T'.servers b').slot (cfg.cacheKey key) ≠ none := by
  rcases hmissed.zero with ⟨item, hitem, hexpires⟩
  rw [deadlineAt_one] at hexpires
  have hlive := hlasting b' item hexpires
  rw [← hmissed.clock b'] at hlive
  rw [Server.slot_of_items hitem hlive]
  exact Option.some_ne_none item

/-- Two steps of the counter. -/
theorem two_add_ofNat (rr : UInt32) (m : Nat) :
    rr + 2 + UInt32.ofNat m = rr + UInt32.ofNat (m + 2) := by
  rw [UInt32.ofNat_add, UInt32.add_assoc, UInt32.add_comm (UInt32.ofNat m)]
  rfl

/-- A call ends if it ends after a first round that misses the key. -/
theorem ends_of_missed (hverb : verb = ascii "incr" ∨ verb = ascii "decr") (hne : cfg.addrs ≠ [])
    {fuel : Nat} (h : ∀ b' T₂, cfg.address (T.rr + 1) = some b' → Missed cfg key ttl b' T T₂ →
      ∃ r T', incr (opened (timed 1)) cfg allDials verb key delta fuel
        (cfg.defaultTTL.resolve ttl) T₂ = (some r, T')) :
    ∃ r T', incr (opened (timed 1)) cfg allDials verb key delta (fuel + 1) ttl T =
      (some r, T') := by
  rcases Config.exists_address hne T.rr with ⟨b, hb⟩
  rcases Config.exists_address hne (T.rr + 1) with ⟨b', hb'⟩
  by_cases hfound : delta < 0 ∨ (T.servers b).slot (cfg.cacheKey key) ≠ none
  · exact incr_found hverb hb hfound fuel
  · rcases not_or.mp hfound with ⟨hdelta, hmissing⟩
    rcases incr_missed hverb (Int64.not_lt.mp hdelta) hb hb' (not_not.mp hmissing) ttl fuel with
      ⟨T₂, T', hmissed, heq⟩
    rcases h b' T₂ hb' hmissed with ⟨r, T₃, hrest⟩
    rw [hrest] at heq
    exact ⟨r, T', heq⟩

/-- A call ends that asks a server that has the key. -/
theorem ends_of_holds (hverb : verb = ascii "incr" ∨ verb = ascii "decr") (hne : cfg.addrs ≠ [])
    {b : Addr} {j : Nat} (hlasting : Lasting cfg ttl T)
    (hb : cfg.address (T.rr + UInt32.ofNat (2 * j)) = some b)
    (hholds : (T.servers b).slot (cfg.cacheKey key) ≠ none) :
    ∃ r T', incr (opened (timed 1)) cfg allDials verb key delta (j + 1) ttl T = (some r, T') := by
  -- every round before the one at `b` ends the call or leaves the key there
  induction j generalizing ttl T with
  | zero =>
    have hrr : T.rr + UInt32.ofNat (2 * 0) = T.rr := UInt32.add_zero _
    rw [hrr] at hb
    exact incr_found hverb hb (Or.inr hholds) 0
  | succ j ih =>
    refine ends_of_missed hverb hne fun b' T₂ hb' hmissed => ?_
    refine ih (hlasting.missed hmissed) ?_ ?_
    · rw [hmissed.rr, two_add_ofNat]
      exact hb
    · by_cases hbb : b = b'
      · rw [hbb]
        exact hmissed.holds hlasting
      · rw [hmissed.other b hbb]
        exact hholds

/-- A call ends that asks a server at which it has stored a zero. -/
theorem ends_of_meets (hverb : verb = ascii "incr" ∨ verb = ascii "decr") (hne : cfg.addrs ≠ [])
    {b : Addr} {i j : Nat} (hij : i < j) (hlasting : Lasting cfg ttl T)
    (hstores : cfg.address (T.rr + UInt32.ofNat (2 * i + 1)) = some b)
    (hasks : cfg.address (T.rr + UInt32.ofNat (2 * j)) = some b) :
    ∃ r T', incr (opened (timed 1)) cfg allDials verb key delta (j + 1) ttl T = (some r, T') := by
  induction i generalizing j ttl T with
  | zero =>
    rcases Nat.exists_eq_add_of_lt hij with ⟨k, rfl⟩
    refine ends_of_missed hverb hne fun b' T₂ hb' hmissed => ?_
    obtain rfl : b' = b := Option.some.inj (hb'.symm.trans hstores)
    refine ends_of_holds hverb hne (hlasting.missed hmissed) ?_ (hmissed.holds hlasting)
    rw [hmissed.rr, two_add_ofNat]
    exact hasks
  | succ i ih =>
    rcases Nat.exists_eq_add_of_lt hij with ⟨k, rfl⟩
    refine ends_of_missed hverb hne fun b' T₂ hb' hmissed => ?_
    refine ih (by omega) (hlasting.missed hmissed) ?_ ?_
    · rw [hmissed.rr, two_add_ofNat]
      exact hstores
    · rw [hmissed.rr, two_add_ofNat]
      exact hasks

/-- A call that reaches no such server has not ended after any number of rounds. -/
theorem never_ends (hverb : verb = ascii "incr" ∨ verb = ascii "decr") (hdelta : 0 ≤ delta)
    (hne : cfg.addrs ≠ []) (hreaches : ¬ Reaches cfg key T) (fuel : Nat) :
    (incr (opened (timed 1)) cfg allDials verb key delta fuel ttl T).1 = none := by
  -- the zero of a round is at an address that no later round asks
  induction fuel generalizing ttl T with
  | zero => rfl
  | succ fuel ih =>
    rcases Config.exists_address hne T.rr with ⟨b, hb⟩
    rcases Config.exists_address hne (T.rr + 1) with ⟨b', hb'⟩
    have hmissing : (T.servers b).slot (cfg.cacheKey key) = none := by
      by_contra hholds
      exact hreaches ⟨T.rr, b, rfl, hb, Or.inl hholds⟩
    rcases incr_missed hverb hdelta hb hb' hmissing ttl fuel with ⟨T₂, T', hmissed, heq⟩
    rw [heq]
    refine ih ?_
    rintro ⟨c, a, hc, ha, hwhy⟩
    have hparity : T₂.rr.toNat % 2 = T.rr.toNat % 2 := by
      rw [hmissed.rr, UInt32.toNat_add]
      simp only [UInt32.reduceToNat]
      omega
    rw [hparity] at hc hwhy
    have hother : (T.rr + 1).toNat % 2 ≠ T.rr.toNat % 2 := by
      rw [UInt32.toNat_add]
      simp only [UInt32.reduceToNat]
      omega
    by_cases hab : a = b'
    · exact hreaches ⟨c, a, hc, ha, Or.inr ⟨T.rr + 1, hother, hab ▸ hb'⟩⟩
    · rw [hmissed.other a hab] at hwhy
      exact hreaches ⟨c, a, hc, ha, hwhy⟩

/-- A call that reaches such a server ends. -/
theorem ends_of_reaches (hverb : verb = ascii "incr" ∨ verb = ascii "decr") (hne : cfg.addrs ≠ [])
    (hlasting : Lasting cfg ttl T) (hreaches : Reaches cfg key T) :
    ∃ fuel r T', incr (opened (timed 1)) cfg allDials verb key delta fuel ttl T = (some r, T') := by
  -- the counter comes to every value again and again
  have hsteps : ∀ c : UInt32, ∀ k : Nat,
      T.rr + UInt32.ofNat ((c - T.rr).toNat + k * 2 ^ 32) = c := by
    intro c k
    have hc := c.toNat_lt
    have hrr := T.rr.toNat_lt
    apply UInt32.toNat.inj
    rw [UInt32.toNat_add, UInt32.toNat_ofNat', UInt32.toNat_sub]
    omega
  have hdistance : ∀ c : UInt32, (c - T.rr).toNat < 2 ^ 32 ∧
      ((c - T.rr).toNat % 2 = 0 ↔ c.toNat % 2 = T.rr.toNat % 2) := by
    intro c
    have hc := c.toNat_lt
    have hrr := T.rr.toNat_lt
    rw [UInt32.toNat_sub]
    omega
  rcases hreaches with ⟨c, b, hc, hb, hholds | ⟨c', hc', hb'⟩⟩
  · have heven := (hdistance c).2.mpr hc
    refine ⟨_, ends_of_holds hverb hne (j := (c - T.rr).toNat / 2) hlasting ?_ hholds⟩
    rw [show 2 * ((c - T.rr).toNat / 2) = (c - T.rr).toNat + 0 * 2 ^ 32 by omega, hsteps]
    exact hb
  · have heven := (hdistance c).2.mpr hc
    have hodd := mt (hdistance c').2.mp hc'
    have hlt := (hdistance c').1
    refine ⟨_, ends_of_meets hverb hne (b := b) (i := (c' - T.rr).toNat / 2)
      (j := ((c - T.rr).toNat + 1 * 2 ^ 32) / 2) (by omega) hlasting ?_ ?_⟩
    · rw [show 2 * ((c' - T.rr).toNat / 2) + 1 = (c' - T.rr).toNat + 0 * 2 ^ 32 by omega, hsteps]
      exact hb'
    · rw [show 2 * (((c - T.rr).toNat + 1 * 2 ^ 32) / 2) = (c - T.rr).toNat + 1 * 2 ^ 32 by omega,
        hsteps]
      exact hb

end Call

/-! ## Main results -/

variable {cfg : Config}

/-- With an odd number of addresses, the first one has both parities. -/
theorem reaches_of_odd (hodd : cfg.addrs.length % 2 = 1) (hlength : cfg.addrs.length < 2 ^ 32)
    (key : Key) (T : State Server Unit) : Reaches cfg key T := by
  have hne : cfg.addrs ≠ [] := by
    intro hnil
    rw [hnil] at hodd
    cases hodd
  have hnat : (UInt32.ofNat cfg.addrs.length).toNat = cfg.addrs.length :=
    UInt32.toNat_ofNat_of_lt' hlength
  have haround : cfg.address (UInt32.ofNat cfg.addrs.length) = cfg.address 0 := by
    rw [Config.address, Config.address, hnat, Nat.mod_self]
    rfl
  rcases Config.exists_address hne 0 with ⟨b, hb⟩
  rcases Nat.mod_two_eq_zero_or_one T.rr.toNat with heven | hodd'
  · refine ⟨0, b, by rw [heven]; rfl, hb, Or.inr ⟨UInt32.ofNat cfg.addrs.length, ?_, ?_⟩⟩
    · rw [hnat]
      omega
    · rw [haround, hb]
  · refine ⟨UInt32.ofNat cfg.addrs.length, b, ?_, by rw [haround, hb], Or.inr ⟨0, ?_, hb⟩⟩
    · rw [hnat, hodd, hodd']
    · rw [hodd']
      decide

/-- The reply of a call of the contract is that of its method. -/
theorem exec_counter_reply {key : Key} {op : CounterOp} (hkey : OneWordKeys cfg (toOp key op))
    (fuel : Nat) (T : State Server Unit) :
    (exec (wire memcached) cfg allDials fuel (toOp key op) T.connected).1 =
      (incr (opened (timed 1)) cfg allDials (route op).1 key (route op).2 fuel op.ttl T).1.map
        (Except.map .number) := by
  rw [exec_connected memcached hkey, exec_counter, ← timed_one]
  unfold Call.map Call.andThen
  rcases incr (opened (timed 1)) cfg allDials (route op).1 key (route op).2 fuel op.ttl T with
    ⟨_ | _ | _, T'⟩
  · rfl
  · rfl
  · rfl

/-- A counter call ends if and only if the server refuses its delta, or it reaches a server that has
the key or that it stores a zero at. -/
theorem counter_call_terminates_iff {cfg : Config} (hne : cfg.addrs ≠ []) {key : Key}
    {op : CounterOp} (hkey : OneWordKeys cfg (toOp key op)) {T : State Server Unit}
    (hlasting : Lasting cfg op.ttl T) :
    Terminates cfg key op T.connected ↔ (route op).2 < 0 ∨ Reaches cfg key T := by
  constructor
  · rintro ⟨r, fuel, hends⟩
    by_contra hreaches
    rcases not_or.mp hreaches with ⟨hdelta, hreaches⟩
    have hnone : (incr (opened (timed 1)) cfg allDials (route op).1 key (route op).2 fuel op.ttl
        T).1 = none := never_ends (route_verb op) (Int64.not_lt.mp hdelta) hne hreaches fuel
    have hsome := hends 0
    rw [exec_counter_reply hkey, Nat.add_zero, hnone] at hsome
    cases hsome
  · intro hwhy
    have hends : ∃ fuel r T', incr (opened (timed 1)) cfg allDials (route op).1 key (route op).2
        fuel op.ttl T = (some r, T') := by
      rcases hwhy with hdelta | hreaches
      · rcases Config.exists_address hne T.rr with ⟨b, hb⟩
        exact ⟨1, incr_found (route_verb op) hb (Or.inl hdelta) 0⟩
      · exact ends_of_reaches (route_verb op) hne hlasting hreaches
    rcases hends with ⟨fuel, r, T', heq⟩
    refine ⟨r.map .number, fuel, fun more => ?_⟩
    rw [exec_counter_reply hkey, incr_add heq more]
    rfl

/-- A lifetime of at most thirty days lasts. -/
theorem lasting_of_le {ttl : Duration} (httl : seconds (cfg.defaultTTL.resolve ttl) ≤ maxRelative)
    (T : State Server Unit) : Lasting cfg ttl T := by
  intro a item hexpires
  rw [← deadlineAt_one] at hexpires
  exact live_deadlineAt Nat.one_pos (seconds_pos _) httl hexpires

/-- A store whose servers are empty. -/
def emptyStore : State Server Unit := ⟨fun _ => sampleServer, fun _ => [], 0⟩

/-- Three servers. -/
def threeAddresses : Config :=
  Config.new [ascii "10.0.0.1:11211", ascii "10.0.0.2:11211", ascii "10.0.0.3:11211"] 0 []

/-- With three addresses, the call ends. -/
theorem terminates_threeAddresses :
    Terminates threeAddresses (ascii "hits") (.increment 1 60000000000) emptyStore.connected := by
  have hkey : OneWordKeys threeAddresses (toOp (ascii "hits") (.increment 1 60000000000)) := by
    decide +kernel
  refine (counter_call_terminates_iff (by decide) hkey (lasting_of_le (by decide) _)).mpr ?_
  exact Or.inr (reaches_of_odd (by decide) (by decide) _ _)

/-- With two addresses, the call looks for the key at the first one and stores its zeros at the
second one. -/
theorem two_addresses_never_end :
    Lasting twoAddresses 60000000000 emptyStore ∧
      ∀ fuel, (exec (wire memcached) twoAddresses allDials fuel
        (.increment (ascii "hits") 1 60000000000) emptyStore.connected).1 = none := by
  have haddress : ∀ c : UInt32, twoAddresses.address c = twoAddresses.addrs[c.toNat % 2]? :=
    fun c => List.head?_rotate (Nat.mod_lt _ Nat.two_pos)
  have hreaches : ¬ Reaches twoAddresses (ascii "hits") emptyStore := by
    rintro ⟨c, b, hc, hb, hholds | ⟨c', hc', hb'⟩⟩
    · exact hholds rfl
    · have hodd : c'.toNat % 2 = 1 := Nat.mod_two_ne_zero.mp hc'
      rw [haddress, hc] at hb
      rw [haddress, hodd, ← hb] at hb'
      revert hb'
      decide
  have hkey : OneWordKeys twoAddresses (.increment (ascii "hits") 1 60000000000) := by
    decide +kernel
  refine ⟨lasting_of_le (by decide) _, fun fuel => ?_⟩
  refine (exec_counter_reply (show OneWordKeys twoAddresses
    (toOp (ascii "hits") (.increment 1 60000000000)) from hkey) fuel emptyStore).trans ?_
  rw [never_ends (route_verb _) (by decide) (by decide) hreaches]
  rfl

end Memcached
end GoforjCache
