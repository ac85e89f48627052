import GoforjCache.Core.Portable
import GoforjCache.Core.ShapingUpgrade

/-!
# Core - Runs through the shaping layers

`WrapStore` over a store that follows the contract answers every call as an unwrapped store does,
over whole runs: the two layers are one layer that encodes what is written and decodes what is
read, and the store below holds an encoding of what the unwrapped store holds.  Counters and locks
bypass the layers, so a key is either one of theirs or one of values, never both.

Main results:

- Theorem `wrapStore_exec`: the layers of a configuration are one layer.
- Theorem `related_call`: a call through the layers is answered as without them.
- Theorem `related_step`: every step keeps the encodings in the store below.
-/

namespace GoforjCache
namespace Shaping

open Foundation Foundation.Transition Observation

variable {σ τ : Type} {gz : Gzip} {aead : Aead} {cfg : BaseConfig}

/-! ## Two layers are one -/

/-- What a configuration makes of a value that is written. -/
def encodeAll (gz : Gzip) (aead : Aead) (cfg : BaseConfig) (nonce : Option Nonce) (v : Bytes) :
    Except CacheError Bytes := do
  let plain ←
    if cfg.encryptionKey.length > 0 then encrypt aead cfg.encryptionKey nonce v else pure v
  if cfg.compression.normalize ≠ .none ∨ 0 < cfg.maxValueBytes then
    encodeValue gz cfg.compression.normalize cfg.maxValueBytes plain
  else pure plain

/-- What it makes of the bytes that are read. -/
def decodeAll (gz : Gzip) (aead : Aead) (cfg : BaseConfig) (body : Bytes) :
    Except CacheError Bytes := do
  let plain ← if cfg.compression.normalize ≠ .none ∨ 0 < cfg.maxValueBytes then
    decodeValue gz cfg.maxValueBytes body else pure body
  if cfg.encryptionKey.length > 0 then decrypt aead cfg.encryptionKey plain else pure plain

variable {inner : Shaping.Store σ}

/-- A store with the lock capability is a layer that changes nothing. -/
theorem transform_pure (hlock : inner.isLockStore = true) (nonce : Option Nonce) (s : σ) (op : Op) :
    (transform (fun _ => .ok) .ok inner).exec nonce s op = inner.exec nonce s op := by
  cases op with
  | get key =>
    have hres : ∀ res, decodeRes .ok res = res := by
      intro res
      cases res with
      | value body => cases body <;> rfl
      | _ => rfl
    simp only [transform, hres]
  | lockAcquire key owner ttl | lockRelease key owner => simp only [transform, hlock, if_true]
  | _ => rfl

/-- A layer around a layer is one layer. -/
theorem transform_transform (enc enc' : Option Nonce → Bytes → Except CacheError Bytes)
    (dec dec' : Bytes → Except CacheError Bytes) (hlock : inner.isLockStore = true)
    (nonce : Option Nonce) (s : σ) (op : Op) :
    (transform enc dec (transform enc' dec' inner)).exec nonce s op =
      (transform (fun n v => enc n v >>= enc' n) (fun b => dec' b >>= dec) inner).exec nonce s
        op := by
  cases op with
  | get key =>
    have hres : ∀ res, decodeRes dec (decodeRes dec' res) =
        decodeRes (fun b => dec' b >>= dec) res := by
      intro res
      cases res with
      | value body =>
        cases body with
        | none => rfl
        | some body => cases hdec : dec' body <;> simp only [decodeRes, hdec] <;> rfl
      | _ => rfl
    simp only [transform, hres]
  | set key v ttl | add key v ttl =>
    cases henc : enc nonce v with
    | error err => simp only [transform, henc]; rfl
    | ok e => simp only [transform, henc]; rfl
  | lockAcquire key owner ttl | lockRelease key owner => simp only [transform, hlock, if_true]
  | _ => rfl

/-- The layers that `WrapStore` installs are one layer. -/
theorem wrapStore_exec (hcfg : validateBaseConfig cfg = none) (hlock : inner.isLockStore = true)
    (nonce : Option Nonce) (s : σ) (op : Op) :
    (wrapStore gz aead inner cfg).1.exec nonce s op =
      (transform (encodeAll gz aead cfg) (decodeAll gz aead cfg) inner).exec nonce s op := by
  unfold wrapStore encodeAll decodeAll
  rw [hcfg]
  dsimp only
  by_cases hkey : cfg.encryptionKey.length > 0 <;>
    by_cases hshape : cfg.compression.normalize ≠ .none ∨ 0 < cfg.maxValueBytes
  · simp only [if_pos hkey, if_pos hshape]
    exact transform_transform _ _ _ _ hlock nonce s op
  · simp only [if_pos hkey, if_neg hshape, bind_pure, pure_bind]
    rfl
  · simp only [if_neg hkey, if_pos hshape, bind_pure, pure_bind]
    rfl
  · simp only [if_neg hkey, if_neg hshape]
    exact (transform_pure hlock nonce s op).symm

/-- Gzip without a limit accepts every value and reads it back, with a key or without. -/
theorem decodeAll_encodeAll_gzip (hgzip : cfg.compression = .gzip) (hmax : cfg.maxValueBytes = 0)
    (nonce : Nonce) (v : Bytes) :
    ∃ e, encodeAll gz aead cfg (some nonce) v = .ok e ∧ decodeAll gz aead cfg e = .ok v := by
  have hshape : cfg.compression.normalize ≠ .none ∨ 0 < cfg.maxValueBytes :=
    Or.inl (by simp [hgzip, Codec.normalize])
  have hencode : ∀ body, encodeValue gz cfg.compression.normalize cfg.maxValueBytes body =
      .ok (compressed gz body) := by
    intro body
    simp [hgzip, hmax, Codec.normalize, encodeValue, compressed]
  have hdecode : ∀ body, decodeValue gz cfg.maxValueBytes (compressed gz body) = .ok body := by
    intro body
    rw [hmax]
    exact decodeValue_compressed body
  unfold encodeAll decodeAll
  by_cases hkey : cfg.encryptionKey.length > 0
  · refine ⟨compressed gz (encrypted aead cfg.encryptionKey nonce v), ?_, ?_⟩
    · simp only [if_pos hkey, if_pos hshape]
      exact hencode _
    · simp only [if_pos hkey, if_pos hshape, hdecode]
      exact decrypt_encrypt (rfl : encrypt aead cfg.encryptionKey (some nonce) v = _)
  · refine ⟨compressed gz v, ?_, ?_⟩
    · simp only [if_neg hkey, if_pos hshape, pure_bind, hencode]
    · simp only [if_neg hkey, if_pos hshape, hdecode]
      rfl

/-! ## Encodings -/

/-- A valid configuration of the layers, and the keys that hold counters and locks. -/
structure Wrap where
  gz : Gzip
  aead : Aead
  cfg : BaseConfig
  valid : validateBaseConfig cfg = none
  plain : Key → Bool

/-- What the layers write for a value. -/
def Wrap.encode (W : Wrap) (nonce : Nonce) (v : Bytes) : Except CacheError Bytes :=
  encodeAll W.gz W.aead W.cfg (some nonce) v

/-- What the layers read. -/
def Wrap.decode (W : Wrap) : Bytes → Except CacheError Bytes := decodeAll W.gz W.aead W.cfg

/-- An entry below the layers is read as an entry. -/
inductive Wrap.Reads (W : Wrap) : Option Bytes → Option Bytes → Prop
  | missing : Reads W none none
  | entry {body v : Bytes} (h : W.decode body = .ok v) : Reads W (some body) (some v)

/-- What a key holds below the layers and without them. -/
def Wrap.Match (W : Wrap) (key : Key) (live live' : Option Bytes) : Prop :=
  if W.plain key = true then live = live' else W.Reads live live'

/-- The call keeps values apart from counters and locks, the layers accept the value it writes and
read it back, and they read the counter or lock it asks for as it is. -/
def Wrap.Accepts (W : Wrap) (held : Key → Option Bytes) : Op → Prop
  | .get key => W.plain key = true → W.Reads (held key) (held key)
  | .set key v _ | .add key v _ =>
    W.plain key = false ∧ ∀ nonce, ∃ e, W.encode nonce v = .ok e ∧ W.decode e = .ok v
  | .increment key _ _ | .decrement key _ _ | .lockAcquire key _ _ | .lockRelease key _ =>
    W.plain key = true
  | .delete _ | .deleteMany _ | .flush => True

variable {W : Wrap} {key : Key} {live live' : Option Bytes}

theorem Wrap.Match.eq (h : W.Match key live live') (hplain : W.plain key = true) :
    live = live' := by
  rwa [Match, if_pos hplain] at h

theorem Wrap.Match.reads (h : W.Match key live live') (hvalue : W.plain key = false) :
    W.Reads live live' := by
  rwa [Match, if_neg (by simp [hvalue])] at h

theorem Wrap.Reads.decodeRes (h : W.Reads live live') :
    decodeRes W.decode (.value live) = .value live' := by
  cases h with
  | missing => rfl
  | entry h => simp only [Shaping.decodeRes, h]

/-! ## Runs -/

/-- The store below at an instant, as the layers see it. -/
def below (S : Observation.Store σ) (now : Int) : Shaping.Store σ :=
  ⟨fun _ s op => S.exec now s op, true⟩

/-- The store behind the layers; entropy may give any nonce. -/
def Wrap.store (W : Wrap) (nonces : Int → σ → Op → Nonce) (S : Observation.Store σ) :
    Observation.Store σ where
  exec := fun now s op =>
    (wrapStore W.gz W.aead (below S now) W.cfg).1.exec (some (nonces now s op)) s op
  tidy := S.tidy
  live := S.live
  valid := S.valid

/-- The side condition of a step: the call is portable without the layers, and they accept it. -/
def ShapedGuard (d : DefaultTTL) (W : Wrap) (T : Observation.Store τ) (w : World τ σ) :
    Observation.Event → Prop
  | .call op => (portable d).Admits (T.live w.now w.first) op ∧ W.Accepts (T.live w.now w.first) op
  | .tidy => True
  | .tick t => Whole (w.now + t)

/-- The store below the layers holds encodings of what the other store holds. -/
structure Related (W : Wrap) (T : Observation.Store τ) (S : Observation.Store σ) (w : World τ σ) :
    Prop where
  now : Whole w.now
  first : T.valid w.first
  second : S.valid w.second
  held : ∀ key later, Whole later → w.now ≤ later →
    W.Match key (S.live later w.second key) (T.live later w.first key)

/-- A call is answered alike through the layers and without them, and leaves encodings. -/
def Unseen (W : Wrap) (nonces : Int → σ → Op → Nonce) (T : Observation.Store τ)
    (S : Observation.Store σ) (w : World τ σ) (op : Op) : Prop :=
  ((W.store nonces S).exec w.now w.second op).2 = (T.exec w.now w.first op).2 ∧
    Related W T S
      ⟨(T.exec w.now w.first op).1, ((W.store nonces S).exec w.now w.second op).1, w.now⟩

variable {d : DefaultTTL} {T : Observation.Store τ} {S : Observation.Store σ} {w w' : World τ σ}
  {nonces : Int → σ → Op → Nonce} {op : Op}

/-- Stores that hold the same but for encodings after a call on the one and the call that the layers
make of it on the other, when the changes match. -/
theorem Related.follows (hw : Related W T S w) {op' : Op}
    (hone : Follows (portable d) T w.now w.first op)
    (htwo : Follows (portable d) S w.now w.second op')
    (htouches : ∀ key, op'.touches key = op.touches key)
    (hafter : ∀ key later, Whole later → w.now ≤ later → op.touches key = true →
      W.Match key
        (after (portable d) w.now later (S.live later w.second key)
          (op'.plan (S.live w.now w.second key)).1)
        (after (portable d) w.now later (T.live later w.first key)
          (op.plan (T.live w.now w.first key)).1)) :
    Related W T S ⟨(T.exec w.now w.first op).1, (S.exec w.now w.second op').1, w.now⟩ := by
  refine ⟨hw.now, hone.valid, htwo.valid, ?_⟩
  intro key later hlater hle
  rw [htwo.holds key later hlater hle, hone.holds key later hlater hle, htouches]
  split
  · rename_i htouched
    exact hafter key later hlater hle htouched
  · exact hw.held key later hlater hle

/-- A read through the layers is answered as without them. -/
theorem related_get (hT : Lawful (portable d) T) (hS : Lawful (portable d) S)
    (hw : Related W T S w) (hop : (portable d).Admits (T.live w.now w.first) (.get key))
    (haccepts : W.Accepts (T.live w.now w.first) (.get key)) :
    Unseen W nonces T S w (.get key) := by
  have hone := hT.follows w.now w.first _ hw.now hw.first hop
  have hadmits : (portable d).Admits (S.live w.now w.second) (.get key) :=
    ⟨hop.lifetime, .of_simple rfl⟩
  have htwo := hS.follows w.now w.second _ hw.now hw.second hadmits
  have hlayer : (W.store nonces S).exec w.now w.second (.get key) =
      ((S.exec w.now w.second (.get key)).1,
        decodeRes W.decode (S.exec w.now w.second (.get key)).2) :=
    wrapStore_exec W.valid rfl _ _ _
  have hreads : W.Reads (S.live w.now w.second key) (T.live w.now w.first key) := by
    have hmatch := hw.held key w.now hw.now le_rfl
    cases hplain : W.plain key with
    | false => exact hmatch.reads hplain
    | true =>
      rw [hmatch.eq hplain]
      exact haccepts hplain
  rw [Unseen, hlayer]
  refine ⟨?_, hw.follows hone htwo (fun _ => rfl) fun key later hlater hle _ =>
    hw.held key later hlater hle⟩
  rw [htwo.answer key (Or.inl rfl), hone.answer key (Or.inl rfl)]
  exact hreads.decodeRes

/-- A write through the layers is answered as without them, and leaves an encoding. -/
theorem related_write (hT : Lawful (portable d) T) (hS : Lawful (portable d) S)
    (hw : Related W T S w) {v : Bytes} (hwritten : written op = some (key, v))
    (hop : (portable d).Admits (T.live w.now w.first) op) (hvalue : W.plain key = false)
    (haccepts : ∀ nonce, ∃ e, W.encode nonce v = .ok e ∧ W.decode e = .ok v) :
    Unseen W nonces T S w op := by
  obtain ⟨e, henc, hdec⟩ := haccepts (nonces w.now w.second op)
  have henc' : encodeAll W.gz W.aead W.cfg (some (nonces w.now w.second op)) v = .ok e := henc
  have hlayer : (W.store nonces S).exec w.now w.second op =
      S.exec w.now w.second (rewrite e op) := by
    refine (wrapStore_exec W.valid rfl _ _ op).trans ?_
    cases op <;> cases hwritten <;> simp only [transform, henc'] <;> rfl
  have hsingle : op.single = some key ∧ (rewrite e op).single = some key := by
    cases op <;> cases hwritten <;> exact ⟨rfl, rfl⟩
  have hadmits : (portable d).Admits (S.live w.now w.second) (rewrite e op) := by
    cases op <;> cases hwritten <;> exact ⟨hop.lifetime, .of_simple rfl⟩
  have hone := hT.follows w.now w.first op hw.now hw.first hop
  have htwo := hS.follows w.now w.second _ hw.now hw.second hadmits
  have hnow := (hw.held key w.now hw.now le_rfl).reads hvalue
  rw [Unseen, hlayer]
  refine ⟨?_, hw.follows hone htwo ?_ ?_⟩
  · rw [htwo.answer key (Or.inl hsingle.2), hone.answer key (Or.inl hsingle.1)]
    generalize S.live w.now w.second key = live, T.live w.now w.first key = live' at hnow
    cases op <;> cases hwritten <;> cases hnow <;> rfl
  · intro k
    rw [Op.touches_of_single hsingle.1, Op.touches_of_single hsingle.2]
  · intro k later hlater hle htouches
    rw [Op.touches_of_single hsingle.1, decide_eq_true_eq] at htouches
    subst htouches
    have hlater := (hw.held k later hlater hle).reads hvalue
    rw [Wrap.Match, if_neg (by simp [hvalue])]
    -- the write goes through on both sides, or an entry is kept on both
    have hput : ∀ ttl, W.Reads (after (portable d) w.now later (S.live later w.second k)
        (.put e ttl)) (after (portable d) w.now later (T.live later w.first k) (.put v ttl)) := by
      intro ttl
      simp only [after]
      split
      · exact .entry hdec
      · exact .missing
    generalize S.live w.now w.second k = live, T.live w.now w.first k = live' at hnow
    cases op <;> cases hwritten
    · exact hput _
    · cases hnow with
      | missing => exact hput _
      | entry _ => exact hlater

/-- The calls that bypass the layers plan the same. -/
theorem plan_eq_of_accepts {held : Key → Option Bytes} (haccepts : W.Accepts held op)
    (hget : ∀ key, op ≠ .get key) (hwritten : written op = none) (htouches : op.touches key = true)
    (h : W.Match key live live') :
    op.plan live = op.plan live' ∧ (W.plain key = false → (op.plan live').1 = .drop) := by
  have hplain : ∀ k, op.single = some k → W.plain k = true → op.plan live = op.plan live' ∧
      (W.plain key = false → (op.plan live').1 = .drop) := by
    intro k hsingle hk
    rw [Op.touches_of_single hsingle, decide_eq_true_eq] at htouches
    subst htouches
    rw [h.eq hk]
    exact ⟨rfl, fun hvalue => by simp [hk] at hvalue⟩
  cases op with
  | get key => exact absurd rfl (hget key)
  | set key v ttl | add key v ttl => cases hwritten
  | delete key | deleteMany keys | flush => exact ⟨rfl, fun _ => rfl⟩
  | increment k delta ttl | decrement k delta ttl | lockAcquire k owner ttl | lockRelease k owner =>
    exact hplain k rfl haccepts

/-- A call that bypasses the layers is answered as without them. -/
theorem related_direct (hT : Lawful (portable d) T) (hS : Lawful (portable d) S)
    (hw : Related W T S w) (hget : ∀ key, op ≠ .get key) (hwritten : written op = none)
    (hop : (portable d).Admits (T.live w.now w.first) op)
    (haccepts : W.Accepts (T.live w.now w.first) op) : Unseen W nonces T S w op := by
  have hlayer : (W.store nonces S).exec w.now w.second op = S.exec w.now w.second op := by
    refine (wrapStore_exec W.valid rfl _ _ op).trans ?_
    cases op with
    | get key => exact absurd rfl (hget key)
    | set key v ttl | add key v ttl => cases hwritten
    | _ => rfl
  have hnow := fun key => hw.held key w.now hw.now le_rfl
  have hadmits : (portable d).Admits (S.live w.now w.second) op := by
    refine ⟨hop.lifetime, hop.call.keyed, hop.call.distinct, ?_, ?_⟩
    · intro key delta ttl hcounter
      have hplain : W.plain key = true := by cases op <;> cases hcounter <;> exact haccepts
      rw [(hnow key).eq hplain]
      exact hop.call.counts key delta ttl hcounter
    · rintro key owner rfl
      rw [(hnow key).eq haccepts]
      exact hop.call.held key owner rfl
  have hone := hT.follows w.now w.first op hw.now hw.first hop
  have htwo := hS.follows w.now w.second op hw.now hw.second hadmits
  have hplan := fun key (htouches : op.touches key = true) =>
    plan_eq_of_accepts haccepts hget hwritten htouches (hnow key)
  rw [Unseen, hlayer]
  refine ⟨?_, hw.follows hone htwo (fun _ => rfl) ?_⟩
  · cases hsingle : op.single with
    | some key =>
      have htouches : op.touches key = true := by
        rw [Op.touches_of_single hsingle]
        exact decide_eq_true rfl
      rw [htwo.answer key (Or.inl hsingle), hone.answer key (Or.inl hsingle),
        (hplan key htouches).1]
    | none =>
      rw [htwo.answer [] (Or.inr hsingle), hone.answer [] (Or.inr hsingle),
        Op.plan_of_single_eq_none hsingle]
  · intro key later hlater hle htouches
    obtain ⟨hsame, hdrop⟩ := hplan key htouches
    rw [hsame]
    cases hplain : W.plain key with
    | true =>
      rw [(hw.held key later hlater hle).eq hplain, Wrap.Match, if_pos hplain]
    | false =>
      rw [hdrop hplain, Wrap.Match, if_neg (by simp [hplain])]
      exact .missing

/-- A call through the layers is answered as without them. -/
theorem related_call (hT : Lawful (portable d) T) (hS : Lawful (portable d) S)
    (hw : Related W T S w) (hop : (portable d).Admits (T.live w.now w.first) op)
    (haccepts : W.Accepts (T.live w.now w.first) op) : Unseen W nonces T S w op := by
  cases op with
  | get key => exact related_get hT hS hw hop haccepts
  | set key v ttl | add key v ttl =>
    exact related_write hT hS hw rfl hop haccepts.1 haccepts.2
  | _ => exact related_direct hT hS hw (by simp) rfl hop haccepts

/-- Every step keeps the encodings. -/
theorem related_step (hT : Lawful (portable d) T) (hS : Lawful (portable d) S)
    {e : Observation.Event} (hw : Related W T S w) (hG : ShapedGuard d W T w e)
    (h : Observation.step T (W.store nonces S) w e = some w') : Related W T S w' := by
  cases e with
  | call op =>
    cases h
    exact (related_call hT hS hw hG.1 hG.2).2
  | tidy =>
    cases h
    refine ⟨hw.now, hT.tidy_valid _ _ hw.first, hS.tidy_valid _ _ hw.second, ?_⟩
    intro key later hlater hle
    simp only [Wrap.store]
    rw [hT.tidy_live _ _ hw.now key later hlater hle, hS.tidy_live _ _ hw.now key later hlater hle]
    exact hw.held key later hlater hle
  | tick t =>
    cases h
    exact ⟨hG, hw.first, hw.second, fun key later hlater hle => hw.held key later hlater
      ((Int.le_add_of_nonneg_right (Int.natCast_nonneg t)).trans hle)⟩

end Shaping
end GoforjCache
