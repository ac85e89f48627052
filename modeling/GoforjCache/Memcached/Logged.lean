import GoforjCache.Memcached.Simulation

/-!
# Memcached - What a call sends

The link `Link.logged` instruments another one: each server keeps, beside its state, the list
of the commands that the store has sent to it, with what the store read as their answers.  An
exchange that fails leaves its command without an answer.

The instrument changes nothing: the link is the image of the logged one under the map that forgets
the logs.

Main results:

- Theorem `linkImage_logged`: without the logs, the exchanges over the logged link are those
  over the link.
- Theorem `exec_eq_exec_logged`: without the logs, a call over the logged link is the call.
-/

namespace GoforjCache
namespace Memcached

open Foundation

/-! ## The logged link -/

/-- What the store reads after a command: a line, or the parsed answer to a retrieval, which is a
`VALUE` block or `END`. -/
inductive Answer where
  | line (text : Bytes)
  | value
  | ended
deriving DecidableEq

/-- A command by the words of its line, and its answer if the exchange came to one. -/
structure Sent where
  words : List Bytes
  answer : Option Answer
deriving DecidableEq

/-- The answer to a retrieval. -/
def retrievalAnswer {α : Type} (r : Option α) : Answer :=
  if r.isSome then .value else .ended

/-- The result of an exchange, if there is one. -/
def Outcome.result? {α : Type} : Outcome α → Option α
  | .ok a => some a
  | .err _ _ => none
  | .blocked => none

section Logged

variable {σ γ α : Type}

/-- An exchange that is written down at the end of the server's log. -/
def record (ws : List Bytes) (answer : α → Answer) (f : Action σ γ α) :
    Action (σ × List Sent) γ α := fun s c =>
  let r := f s.1 c
  (r.1, (r.2.1, s.2 ++ [⟨ws, r.1.result?.map answer⟩]), r.2.2)

/-- The link with a log for each server. -/
def Link.logged (L : Link σ γ) : Link (σ × List Sent) γ where
  fresh := L.fresh
  close := L.close
  get full := record [ascii "get", full] retrievalAnswer (L.get full)
  gets full := record [ascii "gets", full] retrievalAnswer (L.gets full)
  ask ws := record ws .line (L.ask ws)
  storage verb full exptime value :=
    record (storageWords verb full exptime value.length) .line (L.storage verb full exptime value)
  cas full exptime version :=
    record (storageWords (ascii "cas") full exptime 0 ++ [version]) .line
      (L.cas full exptime version)

/-- Recording an exchange does not change it. -/
theorem record_fst (ws : List Bytes) (answer : α → Answer) (f : Action σ γ α) :
    Sim Prod.fst id (record ws answer f) f :=
  fun _ _ => rfl

/-- For every key, the exchanges of the store over the logged link are those over the link. -/
theorem linkImage_logged (L : Link σ γ) : LinkImage Prod.fst id (fun _ => True) L.logged L where
  fresh := rfl
  get _ := record_fst _ _ _
  set _ _ _ := (record_fst _ _ _).andThen fun _ _ _ _ => Sim.done _
  add _ _ _ := (record_fst _ _ _).andThen fun _ _ _ _ => Sim.done _
  release _ owner := by
    refine (record_fst _ _ _).andThen ?_
    rintro _ _ (_ | ⟨value, version⟩) _
    · exact Sim.done _
    · dsimp only
      split
      · exact Sim.done _
      · exact (record_fst _ _ _).andThen fun _ _ _ _ => Sim.done _
  count _ _ _ := (record_fst _ _ _).andThen fun _ _ _ _ => Sim.done _
  counted _ ttl _ := by
    refine (Sim.done _).andThen ?_
    intro _ _ n _
    split
    · exact (record_fst _ _ _).andThen fun _ _ _ _ => (Sim.done _).andThen fun _ _ _ _ => Sim.done _
    · exact Sim.done _
  delete _ := (record_fst _ _ _).andThen fun _ _ _ _ => Sim.done _
  flush := (record_fst _ _ _).andThen fun _ _ _ _ => Sim.done _

/-- The store with empty logs. -/
def State.unlogged (S : State σ γ) : State (σ × List Sent) γ where
  servers addr := (S.servers addr, [])
  pools := S.pools
  rr := S.rr

theorem State.image_unlogged (S : State σ γ) : S.unlogged.image Prod.fst id = S := by
  simp only [State.image, State.unlogged, List.map_id_fun, Function.id_comp]
  rfl

variable (L : Link σ γ) (cfg : Config) (dials : UInt32 → Addr → Bool) (fuel : Nat) (op : Op)

/-- What a call sends to the server of an address, with the answers. -/
def sent (S : State σ γ) (addr : Addr) : List Sent :=
  ((exec L.logged cfg dials fuel op S.unlogged).2.servers addr).2

/-- Without the logs, a call over the logged link is the call. -/
theorem exec_eq_exec_logged (S : State σ γ) :
    exec L cfg dials fuel op S =
      ((exec L.logged cfg dials fuel op S.unlogged).1,
        (exec L.logged cfg dials fuel op S.unlogged).2.image Prod.fst id) := by
  have himage : exec L cfg dials fuel op (S.unlogged.image Prod.fst id) =
      ((exec L.logged cfg dials fuel op S.unlogged).1,
        (exec L.logged cfg dials fuel op S.unlogged).2.image Prod.fst id) :=
    (linkImage_logged L).exec (fun _ _ => trivial) fuel S.unlogged
  rwa [State.image_unlogged] at himage

end Logged

end Memcached
end GoforjCache
