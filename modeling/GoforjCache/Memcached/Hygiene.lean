import GoforjCache.Foundation.Transition
import GoforjCache.Memcached.Commands
import GoforjCache.Memcached.Server

/-!
# Memcached - What is left on pooled connections

A run of the store over connections that carry bytes.  Between the calls, other clients change what
the servers hold, and servers close connections.  A pooled connection is clean when every byte that
the server has sent on it has been read and the server has taken every byte that was sent to it.

The key of a call is written into the command line as it is.  When every key is one word, the
pooled connections stay clean, and every call gets the reply to its own commands.  A key with a
space makes the server send more than the store reads; the rest is taken for the reply to the next
command on the connection.

Main results:

- Theorem `connections_stay_clean`: in every run on one-word keys all pooled connections are
  clean, every call has the result of the commands it sends, and `Get` returns what a server
  holds for its own key.
- Theorem `key_with_space_leaves_reply`: two blocks for one `Get`, and what the next one
  returns.
-/

namespace GoforjCache
namespace Memcached

open Function Foundation

/-! ## Runs -/

/-- What happens between two states of the store. -/
inductive Event (σ : Type) where
  /-- A call of the store contract. -/
  | call (op : Op) (fuel : Nat) (dials : UInt32 → Addr → Bool)
  /-- A call of `Ready`. -/
  | ready (dials : UInt32 → Addr → Bool)
  /-- Other clients, or time, change what a server holds. -/
  | change (addr : Addr) (s : σ)
  /-- A server closes the connections that are in its pool. -/
  | hangUp (addr : Addr)

/-- The keys of the event are one word. -/
def Event.OneWordKeys {σ : Type} (cfg : Config) : Event σ → Prop
  | .call op _ _ => Memcached.OneWordKeys cfg op
  | .ready _ => True
  | .change _ _ => True
  | .hangUp _ => True

instance {σ : Type} (cfg : Config) : (e : Event σ) → Decidable (e.OneWordKeys cfg)
  | .call op _ _ => inferInstanceAs (Decidable (Memcached.OneWordKeys cfg op))
  | .ready _ => .isTrue trivial
  | .change _ _ => .isTrue trivial
  | .hangUp _ => .isTrue trivial

section Steps

variable {σ γ : Type} (L : Link σ γ) (cfg : Config)

/-- One event. -/
def step (S : State σ γ) : Event σ → Option (State σ γ)
  | .call op fuel dials => some (exec L cfg dials fuel op S).2
  | .ready dials => some (ready L cfg dials S).2
  | .change addr s => some { S with servers := update S.servers addr s }
  | .hangUp addr =>
    some { S with pools := update S.pools addr ((S.pools addr).map L.close) }

/-- The state after `New`. -/
def State.init (servers : Addr → σ) (rr : UInt32) : State σ γ := ⟨servers, fun _ => [], rr⟩

end Steps

/-! ## Clean connections -/

section Clean

variable {σ : Type} {B : Backend σ} {cfg : Config}

/-- Nothing is under way on the connection. -/
def Conn.Clean (c : Conn) : Prop := c.unread = [] ∧ c.pending = []

/-- Nothing is under way on any pooled connection. -/
def State.Clean (S : State σ Conn) : Prop := ∀ addr, ∀ c ∈ S.pools addr, c.Clean

theorem Conn.Clean.idle_alive {c : Conn} (h : c.Clean) : Conn.idle c.alive = c := by
  rcases c with ⟨unread, pending, alive⟩
  obtain ⟨rfl, rfl⟩ : unread = [] ∧ pending = [] := h
  rfl

variable {S : State σ Conn}

/-- A clean state is the image of its open and closed connections. -/
theorem State.Clean.map_idle (h : S.Clean) : (S.map Conn.alive).map Conn.idle = S := by
  have hpools : ∀ addr, (S.pools addr).map (Conn.idle ∘ Conn.alive) = S.pools addr := by
    intro addr
    conv_rhs => rw [← List.map_id (S.pools addr)]
    exact List.map_congr_left fun c hc => (h addr c hc).idle_alive
  rcases S with ⟨servers, pools, rr⟩
  simp only [State.map, State.mk.injEq, true_and, and_true]
  funext addr
  simpa using hpools addr

theorem State.clean_map_idle (S : State σ Bool) : (S.map Conn.idle).Clean := by
  intro addr c hc
  rcases List.mem_map.mp hc with ⟨alive, _, rfl⟩
  exact ⟨rfl, rfl⟩

/-- A call that does over idle connections what it does over whole commands, in a clean state. -/
theorem CallSim.of_clean {α : Type} {f : Call σ Bool α} {f' : Call σ Conn α}
    (hf : CallSim Conn.idle f f') (hS : S.Clean) :
    (f' S).1 = (f (S.map Conn.alive)).1 ∧ (f' S).2.Clean := by
  have hcall := hf (S.map Conn.alive)
  rw [hS.map_idle] at hcall
  rw [hcall]
  exact ⟨rfl, State.clean_map_idle _⟩

/-- One event on one-word keys keeps the connections clean. -/
theorem clean_step {T : State σ Conn} {e : Event σ} (hS : S.Clean) (he : e.OneWordKeys cfg)
    (hstep : step (wire B) cfg S e = some T) : T.Clean := by
  cases e with
  | call op fuel dials =>
    rw [← Option.some.inj hstep]
    exact (((linkSim_wire B).exec he fuel).of_clean hS).2
  | ready dials =>
    rw [← Option.some.inj hstep]
    exact ((linkSim_wire B).readyCall.of_clean hS).2
  | change addr s =>
    rw [← Option.some.inj hstep]
    exact hS
  | hangUp addr =>
    rw [← Option.some.inj hstep]
    intro addr' c hc
    by_cases haddr : addr' = addr
    · subst haddr
      simp only [update_self, List.mem_map] at hc
      rcases hc with ⟨d, hd, rfl⟩
      exact hS addr' d hd
    · simp only [update_of_ne haddr] at hc
      exact hS addr' c hc

theorem clean_init (servers : Addr → σ) (rr : UInt32) :
    (State.init servers rr : State σ Conn).Clean := by
  intro addr c hc
  exact absurd hc List.not_mem_nil

/-! ## Whose value is returned -/

/-- The loop of `acquire` takes an address of the list and leaves the servers alone. -/
theorem acquireFrom_ok {γ : Type} {L : Link σ γ} {dials : Addr → Bool} {addrs : List Addr}
    {S S' : State σ γ} {addr : Addr} {c : γ}
    (h : acquireFrom L dials addrs S = (.ok (addr, c), S')) :
    addr ∈ addrs ∧ S'.servers = S.servers := by
  induction addrs with
  | nil => simp [acquireFrom] at h
  | cons a addrs ih =>
    unfold acquireFrom at h
    split at h
    · cases h
      exact ⟨List.mem_cons_self, rfl⟩
    · split at h
      · cases h
        exact ⟨List.mem_cons_self, rfl⟩
      · exact ⟨List.mem_cons_of_mem a (ih h).1, (ih h).2⟩

theorem acquire_ok {γ : Type} {L : Link σ γ} {dials : UInt32 → Addr → Bool} {S S' : State σ γ}
    {addr : Addr} {c : γ} (h : acquire L cfg dials S = (.ok (addr, c), S')) :
    addr ∈ cfg.addrs ∧ S'.servers = S.servers := by
  unfold acquire at h
  split at h
  · cases h
  · rcases acquireFrom_ok h with ⟨hmem, hservers⟩
    exact ⟨List.mem_rotate.mp hmem, hservers⟩

/-- Over whole commands `Get` returns what a configured server holds for its key. -/
theorem get_commands {dials : UInt32 → Addr → Bool} {key : Key} {S : State σ Bool} {v : Bytes}
    (h : (get (commands B) cfg dials key S).1 = some (.ok (some v))) :
    ∃ addr ∈ cfg.addrs, ∃ e, B.lookup (S.servers addr) (cfg.cacheKey key) = some e ∧
      e.data = v := by
  unfold get exchange withConn at h
  rcases hacquire : acquire (commands B) cfg dials S with ⟨e | ⟨addr, alive⟩, S'⟩
  · rw [hacquire] at h
    cases h
  · rcases acquire_ok hacquire with ⟨hmem, hservers⟩
    refine ⟨addr, hmem, ?_⟩
    rw [hacquire] at h
    cases alive with
    | false => cases h
    | true =>
      have hdata : (B.lookup (S'.servers addr) (cfg.cacheKey key)).map Entry.data = some v :=
        Except.ok.inj (Option.some.inj h)
      rw [hservers] at hdata
      rcases Option.map_eq_some_iff.mp hdata with ⟨e, he, hv⟩
      exact ⟨e, he, hv⟩

end Clean

/-! ## Main result -/

/-- In every run in which all keys are one word, every pooled connection is clean; every call then
has the result that it has when each of its commands is handed to the server as a whole and
answered by its own reply; and `Get` returns the value that a configured server holds for its
own key. -/
theorem connections_stay_clean {σ : Type} (B : Backend σ) (cfg : Config) (servers : Addr → σ)
    (rr : UInt32) {es : List (Event σ)} {S : State σ Conn} (hkeys : ∀ e ∈ es, e.OneWordKeys cfg)
    (hrun : Transition.run (step (wire B) cfg) (State.init servers rr) es = some S) :
    S.Clean ∧
      (∀ op fuel dials, OneWordKeys cfg op →
        (exec (wire B) cfg dials fuel op S).1 =
          (exec (commands B) cfg dials fuel op (S.map Conn.alive)).1) ∧
      (∀ dials, (ready (wire B) cfg dials S).1 =
        (ready (commands B) cfg dials (S.map Conn.alive)).1) ∧
      ∀ key dials v, OneWord (cfg.cacheKey key) →
        (get (wire B) cfg dials key S).1 = some (.ok (some v)) →
          ∃ addr ∈ cfg.addrs, ∃ e, B.lookup (S.servers addr) (cfg.cacheKey key) = some e ∧
            e.data = v := by
  have halong : Transition.Along (step (wire B) cfg) (fun _ e => e.OneWordKeys cfg)
      (State.init servers rr) es :=
    Transition.along_of_forall (fun e he _ => hkeys e he) _
  have hclean : S.Clean :=
    Transition.run_preserves_along (fun _ _ _ hS he hstep => clean_step hS he hstep)
      (clean_init servers rr) halong hrun
  refine ⟨hclean, ?_, ?_, ?_⟩
  · intro op fuel dials hop
    exact (((linkSim_wire B).exec hop fuel).of_clean hclean).1
  · intro dials
    exact ((linkSim_wire B).readyCall.of_clean hclean).1
  · intro key dials v hkey hget
    rw [(((linkSim_wire B).getCall hkey).of_clean hclean).1] at hget
    exact get_commands hget

/-! ## Keys with a space -/

/-- A store with one address. -/
def sampleConfig : Config := Config.new [ascii "127.0.0.1:11211"] 0 []

/-- An empty server of the present. -/
def sampleServer : Server := ⟨1700000000, fun _ => none, 0⟩

/-- Every dial succeeds. -/
def allDials : UInt32 → Addr → Bool := fun _ _ => true

/-- A value is stored and read back. -/
def storeAndRead : List (Event Server) :=
  [.call (.set (ascii "a") (ascii "xyz") 0) 0 allDials, .call (.get (ascii "a")) 0 allDials]

theorem connections_stay_clean_set_get :
    ∃ S, Transition.run (step (wire memcached) sampleConfig) (State.init (fun _ => sampleServer) 0)
        storeAndRead = some S ∧
      S.Clean ∧ (S.pools (ascii "127.0.0.1:11211")).length = 1 := by
  have hkeys : ∀ e ∈ storeAndRead, e.OneWordKeys sampleConfig := by decide +kernel
  refine ⟨_, rfl, ?_, ?_⟩
  · exact (connections_stay_clean memcached sampleConfig _ 0 hkeys rfl).1
  · decide +kernel

/-- The key `a app:a` names two keys to the server, which sends two blocks.  The store reads
one and puts the connection back; the text of the other one, which a client chose as the value of
`a`, is then returned as the value of `b`, of which the server holds nothing. -/
theorem key_with_space_leaves_reply :
    ∃ S, Transition.run (step (wire memcached) sampleConfig)
        (State.init (fun _ => sampleServer) 0)
        [.call (.set (ascii "a") (ascii "VALUE app:b 0 3\r\nxyz\r\nEND") 0) 0 allDials,
          .call (.get (ascii "a app:a")) 0 allDials] = some S ∧
      (∃ c ∈ S.pools (ascii "127.0.0.1:11211"), c.unread ≠ []) ∧
      (get (wire memcached) sampleConfig allDials (ascii "b") S).1 =
        some (.ok (some (ascii "xyz"))) ∧
      (memcached.lookup (S.servers (ascii "127.0.0.1:11211")) (ascii "app:b")).isNone = true :=
  ⟨_, rfl, by decide +kernel, by rfl, by decide +kernel⟩

end Memcached
end GoforjCache
