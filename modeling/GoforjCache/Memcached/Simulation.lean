import GoforjCache.Memcached.Store

/-!
# Memcached - Simulations between links

Two links that do the same on images of servers and connections make the same store: every call has
the same reply over both, and the servers and connections of one are the images of those of the
other.  A `LinkSim` compares two links over the same servers, command by command and for keys
that are one word: keys without a space and a newline in which Go's `strings.Fields` sees one
field.

Main results:

- Theorem `LinkImage.exec`: every call does over one link what it does over the other.
- Theorem `LinkSim.exec`: the same for the calls on one-word keys.
-/

namespace GoforjCache
namespace Memcached

open Function Foundation Foundation.Decimal
open Words (fields)

/-! ## Simulations -/

section Simulation

variable {σ σ' γ γ' α β : Type}

/-- On images of states and connections, the second exchange does what the first one does. -/
def Sim (ψ : σ → σ') (φ : γ → γ') (f : Action σ γ α) (f' : Action σ' γ' α) : Prop :=
  ∀ s c, f' (ψ s) (φ c) = ((f s c).1, ψ (f s c).2.1, φ (f s c).2.2)

variable {ψ : σ → σ'} {φ : γ → γ'}

theorem Sim.done (r : Outcome α) : Sim ψ φ (.done r) (.done r) := fun _ _ => rfl

variable {f : Action σ γ α} {f' : Action σ' γ' α}

/-- Simulations compose; the rests have to agree only on results of the beginning. -/
theorem Sim.andThen (hf : Sim ψ φ f f') {g : α → Action σ γ β} {g' : α → Action σ' γ' β}
    (hg : ∀ s c a, (f s c).1 = .ok a → Sim ψ φ (g a) (g' a)) :
    Sim ψ φ (f.andThen g) (f'.andThen g') := by
  intro s c
  have hstart := hf s c
  have hrest := hg s c
  unfold Action.andThen
  rw [hstart]
  generalize f s c = r at hrest ⊢
  rcases r with ⟨a | _ | _, s', c'⟩
  · exact hrest a rfl s' c'
  · rfl
  · rfl

/-! ## Images of the store -/

/-- The same store over images of the servers and of the connections. -/
def State.image (ψ : σ → σ') (φ : γ → γ') (S : State σ γ) : State σ' γ' where
  servers := ψ ∘ S.servers
  pools := List.map φ ∘ S.pools
  rr := S.rr

/-- On images of states, the second call does what the first one does. -/
def CallImage (ψ : σ → σ') (φ : γ → γ') (f : Call σ γ α) (f' : Call σ' γ' α) : Prop :=
  ∀ S, f' (S.image ψ φ) = ((f S).1, (f S).2.image ψ φ)

theorem CallImage.done (r : Except MemcachedError α) : CallImage ψ φ (Call.done r) (Call.done r) :=
  fun _ => rfl

theorem CallImage.andThen {f : Call σ γ α} {f' : Call σ' γ' α} (hf : CallImage ψ φ f f')
    {g : α → Call σ γ β} {g' : α → Call σ' γ' β} (hg : ∀ a, CallImage ψ φ (g a) (g' a)) :
    CallImage ψ φ (f.andThen g) (f'.andThen g') := by
  intro S
  have hstart := hf S
  unfold Call.andThen
  rw [hstart]
  rcases f S with ⟨_ | _ | a, S'⟩
  · rfl
  · rfl
  · exact hg a S'

theorem CallImage.map {f : Call σ γ α} {f' : Call σ' γ' α} (hf : CallImage ψ φ f f') (g : α → β) :
    CallImage ψ φ (f.map g) (f'.map g) :=
  hf.andThen fun a => CallImage.done (.ok (g a))

theorem CallImage.nested {f : Call σ γ α} {f' : Call σ' γ' α} (hf : CallImage ψ φ f f') :
    Sim (State.image ψ φ) φ f.nested f'.nested := by
  intro S c
  have hcall := hf S
  unfold Call.nested
  rw [hcall]
  rcases f S with ⟨_ | _ | a, S'⟩ <;> rfl

theorem Sim.onServer (hf : Sim ψ φ f f') (addr : Addr) :
    Sim (State.image ψ φ) φ (onServer addr f) (onServer addr f') := by
  intro S c
  have hexchange := hf (S.servers addr) c
  simp only [Memcached.onServer, State.image, comp_apply, comp_update, hexchange]

/-- Connections are put into a pool by images. -/
theorem State.image_release (S : State σ γ) (addr : Addr) (c : γ) (bad : Bool) :
    (S.image ψ φ).release addr (φ c) bad = (S.release addr c bad).image ψ φ := by
  unfold State.release
  cases bad with
  | true => rfl
  | false =>
    simp only [Bool.false_eq_true, if_false, State.image, comp_apply, List.length_map]
    split
    · simp only [comp_update, List.map_append, List.map_singleton]
    · rfl

variable {L : Link σ γ} {L' : Link σ' γ'}

/-- Connections are taken from a pool by images. -/
theorem acquireFrom_image (hfresh : L'.fresh = φ L.fresh) (dials : Addr → Bool)
    (addrs : List Addr) (S : State σ γ) :
    acquireFrom L' dials addrs (S.image ψ φ) =
      ((acquireFrom L dials addrs S).1.map (Prod.map id φ),
        (acquireFrom L dials addrs S).2.image ψ φ) := by
  induction addrs with
  | nil => rfl
  | cons addr addrs ih =>
    have hpool : (S.image ψ φ).pools addr = (S.pools addr).map φ := rfl
    cases hcs : S.pools addr with
    | nil =>
      rw [hcs, List.map_nil] at hpool
      simp only [acquireFrom, hpool, hcs]
      split
      · rw [hfresh]
        rfl
      · exact ih
    | cons c cs =>
      rw [hcs, List.map_cons] at hpool
      simp only [acquireFrom, hpool, hcs]
      simp only [State.image, comp_update]
      rfl

theorem acquire_image (hfresh : L'.fresh = φ L.fresh) (cfg : Config)
    (dials : UInt32 → Addr → Bool) (S : State σ γ) :
    acquire L' cfg dials (S.image ψ φ) =
      ((acquire L cfg dials S).1.map (Prod.map id φ), (acquire L cfg dials S).2.image ψ φ) := by
  unfold acquire
  split
  · rfl
  · exact acquireFrom_image hfresh _ _ { S with rr := S.rr + 1 }

/-- A call with simulated bodies is simulated. -/
theorem CallImage.withConn (hfresh : L'.fresh = φ L.fresh) {cfg : Config}
    {dials : UInt32 → Addr → Bool} {body : Addr → Action (State σ γ) γ α}
    {body' : Addr → Action (State σ' γ') γ' α}
    (hbody : ∀ addr, Sim (State.image ψ φ) φ (body addr) (body' addr)) :
    CallImage ψ φ (withConn L cfg dials body) (withConn L' cfg dials body') := by
  intro S
  unfold Memcached.withConn
  rw [acquire_image hfresh]
  rcases acquire L cfg dials S with ⟨e | ⟨addr, c⟩, S'⟩
  · rfl
  · dsimp only [Except.map, Prod.map, id]
    rw [hbody addr S' c]
    rcases body addr S' c with ⟨_ | _ | _, S'', c'⟩
    · dsimp only
      rw [State.image_release]
    · dsimp only
      rw [State.image_release]
    · rfl

theorem CallImage.exchange (hfresh : L'.fresh = φ L.fresh) {cfg : Config}
    {dials : UInt32 → Addr → Bool} (hf : Sim ψ φ f f') :
    CallImage ψ φ (exchange L cfg dials f) (exchange L' cfg dials f') :=
  CallImage.withConn hfresh fun addr => hf.onServer addr

/-- On images of servers and connections, the exchanges of the second link on some keys are those of
the first one. -/
structure LinkImage (ψ : σ → σ') (φ : γ → γ') (K : Key → Prop) (L : Link σ γ) (L' : Link σ' γ') :
    Prop where
  fresh : L'.fresh = φ L.fresh
  get : ∀ {full}, K full → Sim ψ φ (L.get full) (L'.get full)
  set : ∀ {full}, K full → ∀ ttl value, Sim ψ φ (L.set full ttl value) (L'.set full ttl value)
  add : ∀ {full}, K full → ∀ ttl value, Sim ψ φ (L.add full ttl value) (L'.add full ttl value)
  release : ∀ {full}, K full → ∀ owner, Sim ψ φ (L.release full owner) (L'.release full owner)
  count : ∀ {verb full}, verb = ascii "incr" ∨ verb = ascii "decr" → K full → ∀ delta,
    Sim ψ φ (L.count verb full delta) (L'.count verb full delta)
  counted : ∀ {full}, K full → ∀ ttl line,
    Sim ψ φ (L.counted full ttl line) (L'.counted full ttl line)
  delete : ∀ {full}, K full → Sim ψ φ (L.delete full) (L'.delete full)
  flush : Sim ψ φ L.flush L'.flush

namespace LinkImage

variable {K : Key → Prop} (h : LinkImage ψ φ K L L') {cfg : Config}
  {dials : UInt32 → Addr → Bool}

include h

variable {key : Key}

theorem setCall (hkey : K (cfg.cacheKey key)) (value : Bytes) (ttl : Duration) :
    CallImage ψ φ (Memcached.set L cfg dials key value ttl)
      (Memcached.set L' cfg dials key value ttl) :=
  CallImage.exchange h.fresh (h.set hkey _ value)

theorem addCall (hkey : K (cfg.cacheKey key)) (value : Bytes) (ttl : Duration) :
    CallImage ψ φ (Memcached.add L cfg dials key value ttl)
      (Memcached.add L' cfg dials key value ttl) :=
  CallImage.exchange h.fresh (h.add hkey _ value)

theorem deleteCall (hkey : K (cfg.cacheKey key)) :
    CallImage ψ φ (Memcached.delete L cfg dials key) (Memcached.delete L' cfg dials key) :=
  CallImage.exchange h.fresh (h.delete hkey)

/-- The rounds of `incr`, by induction on the fuel. -/
theorem incrCall {verb : Bytes} (hverb : verb = ascii "incr" ∨ verb = ascii "decr")
    (hkey : K (cfg.cacheKey key)) (delta : Int64) (fuel : Nat) (ttl : Duration) :
    CallImage ψ φ (incr L cfg dials verb key delta fuel ttl)
      (incr L' cfg dials verb key delta fuel ttl) := by
  induction fuel generalizing ttl with
  | zero => exact fun S => rfl
  | succ fuel ih =>
    refine CallImage.withConn h.fresh fun addr => ?_
    refine ((h.count hverb hkey delta).onServer addr).andThen ?_
    intro _ _ line _
    split
    · exact (h.setCall hkey _ _).nested.andThen fun _ _ _ _ => (ih _).nested
    · exact (h.counted hkey _ line).onServer addr

theorem incrementCall (hkey : K (cfg.cacheKey key)) (fuel : Nat) (delta : Int64) (ttl : Duration) :
    CallImage ψ φ (increment L cfg dials fuel key delta ttl)
      (increment L' cfg dials fuel key delta ttl) := by
  unfold increment
  split
  · exact h.incrCall (.inr rfl) hkey _ fuel ttl
  · exact h.incrCall (.inl rfl) hkey delta fuel ttl

theorem decrementCall (hkey : K (cfg.cacheKey key)) (fuel : Nat) (delta : Int64) (ttl : Duration) :
    CallImage ψ φ (Memcached.decrementCall L cfg dials fuel key delta ttl)
      (Memcached.decrementCall L' cfg dials fuel key delta ttl) := by
  unfold Memcached.decrementCall
  split
  · exact h.incrementCall hkey fuel _ ttl
  · exact h.incrCall (.inr rfl) hkey delta fuel ttl

theorem deleteManyCall {keys : List Key} (hkeys : ∀ key ∈ keys, K (cfg.cacheKey key)) :
    CallImage ψ φ (deleteMany L cfg dials keys) (deleteMany L' cfg dials keys) := by
  induction keys with
  | nil => exact CallImage.done _
  | cons key keys ih =>
    have hhead := hkeys key List.mem_cons_self
    have htail := ih fun k hk => hkeys k (List.mem_cons_of_mem key hk)
    exact (h.deleteCall hhead).andThen fun _ => htail

/-- Every call on the keys does over one link what it does over the other. -/
theorem exec {op : Op} (hop : ∀ key ∈ op.keys.getD [], K (cfg.cacheKey key)) (fuel : Nat) :
    CallImage ψ φ (Memcached.exec L cfg dials fuel op) (Memcached.exec L' cfg dials fuel op) := by
  cases op with
  | get key => exact (CallImage.exchange h.fresh (h.get (hop key List.mem_cons_self))).map _
  | set key value ttl => exact (h.setCall (hop key List.mem_cons_self) value ttl).map _
  | add key value ttl => exact (h.addCall (hop key List.mem_cons_self) value ttl).map _
  | increment key delta ttl =>
    exact (h.incrementCall (hop key List.mem_cons_self) fuel delta ttl).map _
  | decrement key delta ttl =>
    exact (h.decrementCall (hop key List.mem_cons_self) fuel delta ttl).map _
  | delete key => exact (h.deleteCall (hop key List.mem_cons_self)).map _
  | deleteMany keys => exact (h.deleteManyCall hop).map _
  | flush => exact (CallImage.exchange h.fresh h.flush).map _
  | lockAcquire key owner ttl => exact (h.addCall (hop key List.mem_cons_self) owner ttl).map _
  | lockRelease key owner =>
    exact (CallImage.exchange h.fresh (h.release (hop key List.mem_cons_self) owner)).map _

end LinkImage

end Simulation

/-! ## The same servers -/

section Connections

variable {σ γ γ' α : Type} {φ : γ → γ'}

/-- The same states over other connections. -/
def State.map (φ : γ → γ') (S : State σ γ) : State σ γ' where
  servers := S.servers
  pools := List.map φ ∘ S.pools
  rr := S.rr

/-- On images of states, the second call does what the first one does. -/
def CallSim (φ : γ → γ') (f : Call σ γ α) (f' : Call σ γ' α) : Prop :=
  ∀ S, f' (S.map φ) = ((f S).1, (f S).2.map φ)

theorem CallImage.callSim {f : Call σ γ α} {f' : Call σ γ' α} (h : CallImage id φ f f') :
    CallSim φ f f' :=
  h

theorem State.map_map {γ'' : Type} (φ : γ → γ') (φ' : γ' → γ'') (S : State σ γ) :
    (S.map φ).map φ' = S.map (φ' ∘ φ) := by
  simp only [State.map, ← comp_assoc, List.map_comp_map]

/-- Simulations of calls compose along the connections. -/
theorem CallSim.trans {γ'' : Type} {φ' : γ' → γ''} {f : Call σ γ α} {f' : Call σ γ' α}
    {f'' : Call σ γ'' α} (h : CallSim φ f f') (h' : CallSim φ' f' f'') :
    CallSim (φ' ∘ φ) f f'' := by
  intro S
  have hcall := h' (S.map φ)
  rw [h S, State.map_map, State.map_map] at hcall
  exact hcall

variable {L : Link σ γ} {L' : Link σ γ'}

theorem acquire_map (hfresh : L'.fresh = φ L.fresh) (cfg : Config)
    (dials : UInt32 → Addr → Bool) (S : State σ γ) :
    acquire L' cfg dials (S.map φ) =
      ((acquire L cfg dials S).1.map (Prod.map id φ), (acquire L cfg dials S).2.map φ) :=
  acquire_image (ψ := id) hfresh cfg dials S

theorem CallSim.exchange (hfresh : L'.fresh = φ L.fresh) {cfg : Config}
    {dials : UInt32 → Addr → Bool} {f : Action σ γ α} {f' : Action σ γ' α} (hf : Sim id φ f f') :
    CallSim φ (exchange L cfg dials f) (exchange L' cfg dials f') :=
  (CallImage.exchange hfresh hf).callSim

end Connections

/-! ## Keys of one word -/

/-- The server and the client take the key for one word. -/
def OneWord (full : Key) : Prop := 32 ∉ full ∧ 10 ∉ full ∧ (fields full).length = 1

instance (full : Key) : Decidable (OneWord full) := inferInstanceAs (Decidable (_ ∧ _))

/-- A word of a command line. -/
def IsWord (w : Bytes) : Prop := w ≠ [] ∧ 32 ∉ w ∧ 10 ∉ w

instance (w : Bytes) : Decidable (IsWord w) := inferInstanceAs (Decidable (_ ∧ _))

theorem OneWord.isWord {full : Key} (h : OneWord full) : IsWord full := by
  refine ⟨?_, h.1, h.2.1⟩
  rintro rfl
  exact absurd h.2.2 (by decide)

theorem isWord_formatNat (n : Nat) : IsWord (formatNat n) := by
  refine ⟨formatNat_ne_nil n, ?_, ?_⟩
  · intro h
    exact absurd (mem_formatNat h).1 (by decide)
  · intro h
    exact absurd (mem_formatNat h).1 (by decide)

theorem isWord_formatInt (n : Int64) : IsWord (formatInt n) := by
  refine ⟨?_, ?_, ?_⟩
  · intro h
    have hparse := parseInt_formatInt n
    simp [h, parseInt] at hparse
  · intro h
    rcases mem_formatInt h with heq | hdigit
    · exact absurd heq (by decide)
    · exact absurd hdigit.1 (by decide)
  · intro h
    rcases mem_formatInt h with heq | hdigit
    · exact absurd heq (by decide)
    · exact absurd hdigit.1 (by decide)

/-- Expiration times are small numbers. -/
theorem seconds_lt (ttl : Duration) : seconds ttl < 2 ^ 63 := by
  have hwhole : wholeSeconds ttl ≤ ttl.toInt.toNat / 10 ^ 9 + 1 := by
    unfold wholeSeconds
    dsimp only
    split <;> omega
  have hrange := ttl.toInt_lt
  unfold seconds
  split <;> omega

/-! ## Links -/

/-- On images of connections the second link does what the first one does.  Only the commands of the
store are compared. -/
structure LinkSim {σ γ γ' : Type} (φ : γ → γ') (L : Link σ γ) (L' : Link σ γ') : Prop where
  fresh : L'.fresh = φ L.fresh
  get : ∀ {full}, OneWord full → Sim id φ (L.get full) (L'.get full)
  gets : ∀ {full}, OneWord full → Sim id φ (L.gets full) (L'.gets full)
  ask : ∀ {ws}, (∀ w ∈ ws, IsWord w) → framing ws = .single → Sim id φ (L.ask ws) (L'.ask ws)
  storage : ∀ {verb full exptime}, verb = ascii "set" ∨ verb = ascii "add" → OneWord full →
    exptime < 2 ^ 63 → ∀ value,
      Sim id φ (L.storage verb full exptime value) (L'.storage verb full exptime value)
  cas : ∀ {full exptime}, OneWord full → exptime < 2 ^ 63 → ∀ n,
    Sim id φ (L.cas full exptime (formatNat n)) (L'.cas full exptime (formatNat n))
  /-- Versions are numbers. -/
  version : ∀ {full s c value version}, (L.gets full s c).1 = .ok (some (value, version)) →
    ∃ n, version = formatNat n

/-- All keys of a call are one word. -/
def OneWordKeys (cfg : Config) (op : Op) : Prop :=
  ∀ key ∈ op.keys.getD [], OneWord (cfg.cacheKey key)

instance (cfg : Config) (op : Op) : Decidable (OneWordKeys cfg op) :=
  inferInstanceAs (Decidable (∀ _ ∈ _, _))

namespace LinkSim

variable {σ γ γ' : Type} {φ : γ → γ'} {L : Link σ γ} {L' : Link σ γ'} (h : LinkSim φ L L')

include h

/-! ## The methods -/

variable {full : Key}

theorem set (hfull : OneWord full) (ttl : Duration) (value : Bytes) :
    Sim id φ (L.set full ttl value) (L'.set full ttl value) :=
  (h.storage (.inl rfl) hfull (seconds_lt ttl) value).andThen fun _ _ _ _ => Sim.done _

theorem add (hfull : OneWord full) (ttl : Duration) (value : Bytes) :
    Sim id φ (L.add full ttl value) (L'.add full ttl value) :=
  (h.storage (.inr rfl) hfull (seconds_lt ttl) value).andThen fun _ _ _ _ => Sim.done _

/-- The version that `LockRelease` sends is the one that it got. -/
theorem release (hfull : OneWord full) (owner : Bytes) :
    Sim id φ (L.release full owner) (L'.release full owner) := by
  refine (h.gets hfull).andThen ?_
  rintro s c (_ | ⟨value, version⟩) hresult
  · exact Sim.done _
  · dsimp only
    split
    · exact Sim.done _
    · rcases h.version hresult with ⟨n, rfl⟩
      exact (h.cas hfull (by decide) n).andThen fun _ _ _ _ => Sim.done _

theorem count {verb : Bytes} (hverb : verb = ascii "incr" ∨ verb = ascii "decr")
    (hfull : OneWord full) (delta : Int64) :
    Sim id φ (L.count verb full delta) (L'.count verb full delta) := by
  have hincr : IsWord (ascii "incr") := by decide
  have hdecr : IsWord (ascii "decr") := by decide
  refine (h.ask ?_ ?_).andThen fun _ _ _ _ => Sim.done _
  · rcases hverb with rfl | rfl <;> simp [hincr, hdecr, hfull.isWord, isWord_formatInt]
  · rcases hverb with rfl | rfl <;> rfl

theorem counted (hfull : OneWord full) (ttl : Duration) (line : Bytes) :
    Sim id φ (L.counted full ttl line) (L'.counted full ttl line) := by
  have htouch : IsWord (ascii "touch") := by decide
  refine (Sim.done _).andThen ?_
  intro _ _ n _
  split
  · refine (h.ask ?_ rfl).andThen fun _ _ _ _ => (Sim.done _).andThen fun _ _ _ _ => Sim.done _
    simp [htouch, hfull.isWord, isWord_formatNat]
  · exact Sim.done _

theorem delete (hfull : OneWord full) : Sim id φ (L.delete full) (L'.delete full) := by
  have hdelete : IsWord (ascii "delete") := by decide
  refine (h.ask ?_ rfl).andThen fun _ _ _ _ => Sim.done _
  simp [hdelete, hfull.isWord]

theorem flush : Sim id φ L.flush L'.flush :=
  (h.ask (by decide) rfl).andThen fun _ _ _ _ => Sim.done _

theorem ready : Sim id φ L.ready L'.ready :=
  (h.ask (by decide) rfl).andThen fun _ _ _ _ => Sim.done _

/-- The exchanges of the store on keys of one word. -/
theorem image : LinkImage id φ OneWord L L' where
  fresh := h.fresh
  get := h.get
  set := h.set
  add := h.add
  release := h.release
  count hverb hfull := h.count hverb hfull
  counted := h.counted
  delete := h.delete
  flush := h.flush

/-! ## Calls -/

variable {cfg : Config} {dials : UInt32 → Addr → Bool}

theorem readyCall : CallSim φ (Memcached.ready L cfg dials) (Memcached.ready L' cfg dials) :=
  CallSim.exchange h.fresh h.ready

theorem getCall {key : Key} (hkey : OneWord (cfg.cacheKey key)) :
    CallSim φ (Memcached.get L cfg dials key) (Memcached.get L' cfg dials key) :=
  CallSim.exchange h.fresh (h.get hkey)

theorem incrementCall {key : Key} (hkey : OneWord (cfg.cacheKey key)) (fuel : Nat)
    (delta : Int64) (ttl : Duration) :
    CallSim φ (increment L cfg dials fuel key delta ttl)
      (increment L' cfg dials fuel key delta ttl) :=
  (h.image.incrementCall hkey fuel delta ttl).callSim

/-- Every call on one-word keys does over the one link what it does over the other. -/
theorem exec {op : Op} (hop : OneWordKeys cfg op) (fuel : Nat) :
    CallSim φ (Memcached.exec L cfg dials fuel op) (Memcached.exec L' cfg dials fuel op) :=
  (h.image.exec hop fuel).callSim

end LinkSim

end Memcached
end GoforjCache
