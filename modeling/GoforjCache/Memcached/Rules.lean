import GoforjCache.Memcached.Hygiene

/-!
# Memcached - Rules of pre- and postconditions

An exchange or a call ensures a postcondition if every run that starts in the precondition and ends
with a result ends in the postcondition.  Nothing is said about runs that end with an error or not
at all.  There is one rule for each way in which the store puts exchanges and calls together; the
conditions on calls are conditions on the servers, since the pools are no part of them.

Main results:

- Theorem `Action.Ensures.andThen`, `Call.Ensures.andThen`: one after the other.
- Theorem `Call.Ensures.withConn`: a call with a connection to a configured address.
-/

namespace GoforjCache
namespace Memcached

section Rules

variable {σ γ α β : Type}

/-- If the exchange starts in `P` and ends with a result, it ends in `Q`. -/
def Action.Ensures (P : σ → Prop) (f : Action σ γ α) (Q : α → σ → Prop) : Prop :=
  ∀ s c a, P s → (f s c).1 = .ok a → Q a (f s c).2.1

/-- If the call starts with the servers in `P` and returns without an error, it ends with the
servers in `Q`. -/
def Call.Ensures (P : (Addr → σ) → Prop) (f : Call σ γ α) (Q : α → (Addr → σ) → Prop) : Prop :=
  ∀ S a, P S.servers → (f S).1 = some (.ok a) → Q a (f S).2.servers

section Exchanges

variable {P : σ → Prop} {Q : α → σ → Prop} {R : β → σ → Prop}

theorem Action.Ensures.done {r : Outcome α} (h : ∀ a, r = .ok a → ∀ s, P s → Q a s) :
    Action.Ensures (γ := γ) P (.done r) Q :=
  fun s _ a hs hr => h a hr s hs

variable {f : Action σ γ α}

theorem Action.Ensures.mono {P' : σ → Prop} {Q' : α → σ → Prop} (hf : Action.Ensures P f Q)
    (hP : ∀ s, P' s → P s) (hQ : ∀ a s, Q a s → Q' a s) : Action.Ensures P' f Q' :=
  fun s c a hs ha => hQ a _ (hf s c a (hP s hs) ha)

/-- What follows from a result may be used for the start. -/
theorem Action.Ensures.of_result {C : Prop} (hC : ∀ s c a, (f s c).1 = .ok a → C)
    (hf : C → Action.Ensures P f Q) : Action.Ensures P f Q :=
  fun s c a hs ha => hf (hC s c a ha) s c a hs ha

theorem Action.Ensures.andThen {g : α → Action σ γ β} (hf : Action.Ensures P f Q)
    (hg : ∀ a, Action.Ensures (Q a) (g a) R) : Action.Ensures P (f.andThen g) R := by
  intro s c b hs hb
  have hstart := hf s c
  unfold Action.andThen at hb ⊢
  generalize f s c = r at hstart hb ⊢
  rcases r with ⟨a | _ | _, s', c'⟩
  · exact hg a s' c' b (hstart a hs rfl) hb
  · cases hb
  · cases hb

end Exchanges

variable {P : (Addr → σ) → Prop} {Q : α → (Addr → σ) → Prop} {R : β → (Addr → σ) → Prop}

/-- What an exchange does to its own server. -/
theorem Action.Ensures.onServer {f : Action σ γ α} {I : σ → Prop} {J : α → σ → Prop}
    (h : Action.Ensures I f J) (addr : Addr) :
    Action.Ensures (fun S : State σ γ => I (S.servers addr)) (onServer addr f) fun a S =>
      J a (S.servers addr) := by
  intro S c a hS hr
  simpa [Memcached.onServer] using h (S.servers addr) c a hS hr

/-- An exchange that keeps a property of its server keeps it for all servers. -/
theorem Action.Ensures.onServers {f : Action σ γ α} {I : σ → Prop} {C : α → Prop}
    (h : Action.Ensures I f fun a s => C a → I s) (addr : Addr) :
    Action.Ensures (fun S : State σ γ => ∀ addr', I (S.servers addr')) (Memcached.onServer addr f)
      fun a S => C a → ∀ addr', I (S.servers addr') := by
  intro S c a hS hr hC addr'
  by_cases haddr : addr' = addr
  · subst haddr
    simpa [Memcached.onServer] using h (S.servers addr') c a (hS addr') hr hC
  · simpa [Memcached.onServer, haddr] using hS addr'

theorem Call.Ensures.done {r : Except MemcachedError α}
    (h : ∀ a, r = .ok a → ∀ servers, P servers → Q a servers) :
    Call.Ensures (γ := γ) P (.done r) Q :=
  fun S a hP hr => h a (Option.some.inj hr) S.servers hP

variable {f : Call σ γ α}

theorem Call.Ensures.andThen {g : α → Call σ γ β} (hf : Call.Ensures P f Q)
    (hg : ∀ a, Call.Ensures (Q a) (g a) R) : Call.Ensures P (f.andThen g) R := by
  intro S b hS hb
  have hstart := hf S
  unfold Call.andThen at hb ⊢
  generalize f S = r at hstart hb ⊢
  rcases r with ⟨_ | _ | a, S'⟩
  · cases hb
  · cases hb
  · exact hg a S' b (hstart a hS rfl) hb

theorem Call.Ensures.map {Q : (Addr → σ) → Prop} (hf : Call.Ensures P f fun _ => Q) (g : α → β) :
    Call.Ensures P (f.map g) fun _ => Q :=
  hf.andThen fun _ => Call.Ensures.done fun _ _ _ hQ => hQ

theorem Call.Ensures.nested (hf : Call.Ensures P f Q) :
    Action.Ensures (fun S : State σ γ => P S.servers) f.nested fun a S => Q a S.servers := by
  intro S c a hS ha
  have hcall := hf S
  unfold Call.nested at ha ⊢
  generalize f S = r at hcall ha ⊢
  rcases r with ⟨_ | _ | _, S'⟩
  · cases ha
  · cases ha
  · cases ha
    exact hcall a hS rfl

/-- The pools are no part of the servers. -/
theorem State.release_servers (S : State σ γ) (addr : Addr) (c : γ) (bad : Bool) :
    (S.release addr c bad).servers = S.servers := by
  unfold State.release
  split
  · rfl
  · split <;> rfl

/-- The body runs with an address of the configuration. -/
theorem Call.Ensures.withConn {L : Link σ γ} {cfg : Config} {dials : UInt32 → Addr → Bool}
    {body : Addr → Action (State σ γ) γ α}
    (h : ∀ addr ∈ cfg.addrs, Action.Ensures (fun S : State σ γ => P S.servers) (body addr)
      fun a S => Q a S.servers) : Call.Ensures P (withConn L cfg dials body) Q := by
  intro S a hS ha
  unfold Memcached.withConn at ha ⊢
  rcases hacquire : acquire L cfg dials S with ⟨e | ⟨addr, c⟩, S'⟩
  · rw [hacquire] at ha
    cases ha
  · rw [hacquire] at ha
    rcases acquire_ok hacquire with ⟨haddr, hservers⟩
    rw [← hservers] at hS
    have hbody := h addr haddr S' c
    dsimp only at ha ⊢
    generalize body addr S' c = r at hbody ha ⊢
    rcases r with ⟨_ | _ | _, S'', c'⟩
    · cases ha
      rw [State.release_servers]
      exact hbody a hS rfl
    · cases ha
    · cases ha

end Rules

end Memcached
end GoforjCache
