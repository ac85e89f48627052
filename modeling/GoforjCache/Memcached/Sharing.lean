import GoforjCache.Foundation.Noninterference
import GoforjCache.Memcached.Locality
import GoforjCache.Memcached.ReadYourWrites

/-!
# Memcached - Two stores on the same servers

Two stores have pools and counters of their own and share the servers.  The servers are real ones:
what a store has written expires as time passes.

Main results:

- Theorem `observed_eq_of_disjoint`: on one-word keys, a store whose full keys are all
  different from those of the other one has the same results as if it were alone.
- Theorem `get_after_other_set`: a store finds what the other one has stored under the same
  full key.
-/

namespace GoforjCache
namespace Memcached

open Foundation Noninterference

/-! ## The pair of stores -/

/-- Two stores; both have the same servers. -/
structure TwoStores where
  first : State Server Conn
  second : State Server Conn

/-- A call through one of the stores, or time passes. -/
inductive SharedEvent where
  | call (ours : Bool) (op : Op) (fuel : Nat) (dials : UInt32 → Addr → Bool)
  | tick (seconds : Nat)

/-- What is left when the calls of the second store are removed. -/
def SharedEvent.ours : SharedEvent → Bool
  | .call ours _ _ _ => ours
  | .tick _ => true

/-- Other contents of the servers. -/
def State.withServers {σ γ : Type} (S : State σ γ) (servers : Addr → σ) : State σ γ :=
  { S with servers }

/-- Time passes at all servers. -/
def State.tick {γ : Type} (S : State Server γ) (n : Nat) : State Server γ :=
  S.withServers fun addr => (S.servers addr).tick n

/-- One event, with the reply to a call. -/
def TwoStores.step (first second : Config) (S : TwoStores) :
    SharedEvent → TwoStores × Option (Reply Res)
  | .call true op fuel dials =>
    let r := exec (wire memcached) first dials fuel op S.first
    (⟨r.2, S.second.withServers r.2.servers⟩, some r.1)
  | .call false op fuel dials =>
    let r := exec (wire memcached) second dials fuel op S.second
    (⟨S.first.withServers r.2.servers, r.2⟩, some r.1)
  | .tick n => (⟨S.first.tick n, S.second.tick n⟩, none)

/-- Two new stores. -/
def TwoStores.init (servers : Addr → Server) (rr rr' : UInt32) : TwoStores :=
  ⟨State.init servers rr, State.init servers rr'⟩

/-! ## Time -/

theorem Server.SameItems.tick {K : Key → Prop} {s s' : Server} (h : s.SameItems K s') (n : Nat) :
    (s.tick n).SameItems K (s'.tick n) := by
  refine ⟨congrArg (· + n) h.1, ?_⟩
  intro key hkey
  rw [Server.slot_tick, Server.slot_tick, h.1]
  exact (h.2 key hkey).filter _

/-! ## Isolation -/

section Isolation

variable {K : Key → Prop} {first second : Config}

/-- The states of the run with the second store and of the run without it: the first store is the
same, and so are the items of its keys. -/
inductive Twin (K : Key → Prop) : TwoStores → TwoStores → Prop
  | intro (A B A' : State Server Bool) (X : State Server Conn) (hB : B.servers = A.servers)
      (hA : A.Rel (fun _ => Server.SameItems K) A') :
      Twin K ⟨A.map Conn.idle, B.map Conn.idle⟩ ⟨A'.map Conn.idle, X⟩

/-- The event is one that is compared. -/
def SharedEvent.Admissible (first second : Config) : SharedEvent → Prop
  | .call ours op _ _ => Plain op ∧ OneWordKeys (if ours then first else second) op
  | .tick _ => True

variable {op : Op} {S S' : TwoStores}

theorem exec_idle {cfg : Config} (hop : OneWordKeys cfg op) (fuel : Nat)
    (dials : UInt32 → Addr → Bool) (A : State Server Bool) :
    exec (wire memcached) cfg dials fuel op (A.map Conn.idle) =
      ((exec (commands memcached) cfg dials fuel op A).1,
        (exec (commands memcached) cfg dials fuel op A).2.map Conn.idle) :=
  (linkSim_wire memcached).exec hop fuel A

/-- A call of the first store has the same reply in both runs. -/
theorem Twin.call_first (hfirst : ∀ key, K (first.cacheKey key)) (h : Twin K S S')
    (hplain : Plain op) (hop : OneWordKeys first op) (fuel : Nat) (dials : UInt32 → Addr → Bool) :
    (S'.step first second (.call true op fuel dials)).2 =
        (S.step first second (.call true op fuel dials)).2 ∧
      Twin K (S.step first second (.call true op fuel dials)).1
        (S'.step first second (.call true op fuel dials)).1 := by
  rcases h with ⟨A, B, A', X, hB, hA⟩
  have hrespects : CallRespects (fun _ => Server.SameItems K)
      (exec (commands memcached) first dials fuel op) :=
    exec_respects (fun _ => memcached_respects_sameItems K) hplain (fun key _ => hfirst key) fuel
  rcases hrespects A A' hA with ⟨T', heq, hrel⟩
  simp only [TwoStores.step, exec_idle hop, heq, true_and]
  exact Twin.intro _ (B.withServers _) T' _ rfl hrel

/-- A call of the second store changes nothing for the first one. -/
theorem Twin.call_second (hsecond : ∀ key, ¬K (second.cacheKey key)) (h : Twin K S S')
    (hplain : Plain op) (hop : OneWordKeys second op) (fuel : Nat) (dials : UInt32 → Addr → Bool) :
    Twin K (S.step first second (.call false op fuel dials)).1 S' := by
  rcases h with ⟨A, B, A', X, hB, hA⟩
  have hframe := exec_frame second dials hplain fuel B
  simp only [TwoStores.step, exec_idle hop]
  refine Twin.intro (A.withServers _) _ A' X rfl ⟨?_, hA.pools, hA.rr⟩
  intro addr
  rcases hframe addr with ⟨hclock, hslots⟩
  refine ⟨?_, ?_⟩
  · rw [(hA.servers addr).1, ← hB]
    exact hclock.symm
  · intro full hfull
    have hslot := hslots full fun key _ heq => hsecond key (heq ▸ hfull)
    rw [hB] at hslot
    have hsame := (hA.servers addr).2 full hfull
    rw [← hslot] at hsame
    exact hsame

theorem Twin.tick (h : Twin K S S') (n : Nat) :
    Twin K (S.step first second (.tick n)).1 (S'.step first second (.tick n)).1 := by
  rcases h with ⟨A, B, A', X, hB, hA⟩
  refine Twin.intro (A.tick n) (B.tick n) (A'.tick n) (X.tick n) ?_ ⟨?_, hA.pools, hA.rr⟩
  · funext addr
    exact congrArg (Server.tick · n) (congrFun hB addr)
  · exact fun addr => (hA.servers addr).tick n

/-- A store whose full keys are all different from those of the other one has the results that it
has without the calls of the other one. -/
theorem observed_eq_of_disjoint (hfirst : ∀ key, K (first.cacheKey key))
    (hsecond : ∀ key, ¬K (second.cacheKey key)) (servers : Addr → Server) (rr rr' : UInt32)
    {es : List SharedEvent} (hes : ∀ e ∈ es, e.Admissible first second) :
    observed (TwoStores.step first second) SharedEvent.ours (.init servers rr rr') es =
      observed (TwoStores.step first second) SharedEvent.ours (.init servers rr rr')
        (es.filter SharedEvent.ours) := by
  have hstart : Twin K (.init servers rr rr') (.init servers rr rr') :=
    Twin.intro (State.init servers rr) (State.init servers rr') (State.init servers rr) _ rfl
      ⟨fun _ => ⟨rfl, fun _ _ => rfl⟩, rfl, rfl⟩
  refine observed_eq_of_unwinding ?_ ?_ hstart
  · intro e he hours S S' h
    match e, hes e he with
    | .call true op fuel dials, hop => exact h.call_first hfirst hop.1 hop.2 fuel dials
    | .tick n, _ => exact ⟨rfl, h.tick n⟩
  · intro e he hours S S' h
    match e, hes e he with
    | .call false op fuel dials, hop => exact h.call_second hsecond hop.1 hop.2 fuel dials

end Isolation

/-! ## A common full key -/

section Leak

variable {first second : Config} {addr : Addr} {key key' : Key} {cfg : Config}

theorem head_rotate_singleton (h : cfg.addrs = [addr]) (rr : UInt32) :
    (cfg.addrs.rotate (rr.toNat % cfg.addrs.length)).head? = some addr := by
  rw [h, List.length_singleton, Nat.mod_one, List.rotate_zero]
  rfl

theorem oneWordKeys_single {op : Op} (hop : op.keys = some [key]) (h : OneWord (cfg.cacheKey key)) :
    OneWordKeys cfg op := by
  simpa [OneWordKeys, hop] using h

/-- `Get` of a store with one address. -/
theorem get_idle (haddrs : cfg.addrs = [addr]) (hkey : OneWord (cfg.cacheKey key))
    (S : State Server Unit) :
    (exec (wire memcached) cfg allDials 0 (.get key) (S.map fun _ => Conn.idle true)).1 =
      some (.ok (.value ((S.servers addr).read (cfg.cacheKey key)))) := by
  obtain ⟨T, hget, -⟩ : ∃ T : State Server Unit,
      exec (wire memcached) cfg allDials 0 (.get key) (S.map fun _ => Conn.idle true) =
        (some (.ok (.value ((S.servers addr).read (cfg.cacheKey key)))),
          T.map fun _ => Conn.idle true) ∧ _ :=
    exec_at (oneWordKeys_single rfl hkey) rfl (head_rotate_singleton haddrs S.rr)
      (get_opened (S.servers addr) (cfg.cacheKey key))
  rw [hget]

/-- A store finds what the other one has stored under the same full key. -/
theorem get_after_other_set (hfirst : first.addrs = [addr]) (hsecond : second.addrs = [addr])
    (hname : first.cacheKey key = second.cacheKey key') (hkey : OneWord (first.cacheKey key)) :
    ((((TwoStores.init (fun _ => sampleServer) 0 0).step first second
      (.call false (.set key' [] oneSecond) 0 allDials)).1).step first second
        (.call true (.get key) 0 allDials)).2 = some (some (.ok (.value (some [])))) := by
  have hempty : ([] : Bytes).length ≤ maxAlloc := Nat.zero_le _
  have hop : OneWordKeys second (.set key' [] oneSecond) := oneWordKeys_single rfl (hname ▸ hkey)
  obtain ⟨S, hset, hservers, -⟩ : ∃ S : State Server Unit,
      exec (wire memcached) second allDials 0 (.set key' [] oneSecond)
          (State.init (fun _ => sampleServer) 0) =
        (some (.ok .done), S.map fun _ => Conn.idle true) ∧
      S.servers = Function.update (fun _ => sampleServer) addr _ ∧ S.rr = 0 + 1 :=
    exec_at hop rfl (S := State.init (fun _ => sampleServer) 0) (head_rotate_singleton hsecond 0)
      (set_opened sampleServer (second.cacheKey key') hempty
        (seconds_oneSecond second.defaultTTL))
  have hread : (S.servers addr).read (first.cacheKey key) = some [] := by
    rw [hname, hservers, Function.update_self]
    have hcontents : contents second _ = _ :=
      contents_set sampleServer key' hempty (seconds_oneSecond second.defaultTTL)
    exact (congrFun hcontents key').trans (Function.update_self _ _ _)
  have hget := get_idle hfirst hkey ((State.init (fun _ => sampleServer) 0).withServers S.servers)
  simp only [TwoStores.step, TwoStores.init, hset]
  refine congrArg some (hget.trans ?_)
  rw [State.withServers, hread]

/-- A new store finds nothing on an empty server. -/
theorem get_alone (hfirst : first.addrs = [addr]) (hkey : OneWord (first.cacheKey key)) :
    ((TwoStores.init (fun _ => sampleServer) 0 0).step first second
      (.call true (.get key) 0 allDials)).2 = some (some (.ok (.value none))) :=
  congrArg some (get_idle hfirst hkey (State.init (fun _ => sampleServer) 0))

end Leak

end Memcached
end GoforjCache
