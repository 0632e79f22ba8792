import Retorrent.Network.Uploads
import Retorrent.Piece.Delivery

/-!
# Downloads from sessions that upload

A downloader that collects a piece with the help of any number of sessions. Its requests and the
blocks come through connections that lose nothing and keep the order.
-/

namespace Retorrent

open Rust Systems

/-- A downloader and the sessions it is connected to. It has sent the requests in `requested` and
got the first `received` of the blocks that were sent, on each connection of each session. -/
structure Transfer where
  delivery : PieceDelivery
  sessions : ℕ → Uploads
  requested : ℕ → ℕ → List BlockRequest
  received : ℕ → ℕ → ℕ

inductive TransferEvent where
  | claim (now : Instant) (count : ℕ) (random : ℕ → ℕ)
  | ask (q p : ℕ) (r : BlockRequest)
  | session (q : ℕ) (e : UploadEvent)
  | deliver (q p : ℕ)

/-- The requests that a connection got. -/
def askedOf (acts : List UploadAct) : List BlockRequest :=
  acts.filterMap fun act =>
    match act with
    | .asked r => some r
    | _ => none

/-- The blocks that a connection sent. -/
def servedOf (acts : List UploadAct) : List (BlockRequest × List UInt8) :=
  acts.filterMap fun act =>
    match act with
    | .served r block true => some (r, block)
    | _ => none

/-- What belongs to one connection of one session is changed. -/
def updateLink {α : Type} (f : ℕ → ℕ → α) (q p : ℕ) (a : α) : ℕ → ℕ → α :=
  Function.update f q (Function.update (f q) p a)

namespace Transfer

/-- The request that comes next on a connection. -/
def pending (s : Transfer) (q p : ℕ) : Option BlockRequest :=
  (s.requested q p)[(askedOf (actsOf p (s.sessions q).log)).length]?

/-- The block that comes next on a connection. -/
def incoming (s : Transfer) (q p : ℕ) : Option (BlockRequest × List UInt8) :=
  (servedOf (actsOf p (s.sessions q).log))[s.received q p]?

/-- A connection of the downloader gets its requests. The others may get any. -/
def admits (links : ℕ → ℕ → Bool) (s : Transfer) (q : ℕ) : UploadEvent → Bool
  | .conn p (.request r) => !links q p || s.pending q p = some r
  | _ => true

/-- One step of the downloader or of a session. The downloader asks for blocks of its piece that
it has claimed, and hands what comes to its collector. -/
def next (env : UploadEnv) (b : Build) (links : ℕ → ℕ → Bool) (index : ℕ) (s : Transfer) :
    TransferEvent → Option Transfer
  | .claim now count random => do
    let (c, claimed) ← (s.delivery.collector.claimBlocksWith b now count random).toOption
    return { s with delivery := { s.delivery with
      collector := c, claimed := s.delivery.claimed ++ claimed } }
  | .ask q p r =>
    if links q p ∧ r.index.toNat = index ∧
        s.delivery.claimed.contains (r.begin.toNat, r.length.toNat) then
      some { s with requested := updateLink s.requested q p (s.requested q p ++ [r]) }
    else none
  | .session q e =>
    if s.admits links q e then do
      let u ← (s.sessions q).next env e
      return { s with sessions := Function.update s.sessions q u }
    else none
  | .deliver q p =>
    if links q p then do
      let (r, block) ← s.incoming q p
      return { s with
        delivery := { s.delivery with
          collector := (s.delivery.collector.addBlock r.begin.toNat block).1
          delivered := s.delivery.delivered ++ [r.begin.toNat] }
        received := updateLink s.received q p (s.received q p + 1) }
    else none

/-- The sessions write whole pieces. -/
def Whole (env : UploadEnv) (s : Transfer) : TransferEvent → Prop
  | .session q e => (s.sessions q).Whole env e
  | _ => True

end Transfer

/-- The runs of a downloader that starts on a piece of some size, with sessions that start. -/
def transfers (env : UploadEnv) (cap : ℕ → ℕ) (b : Build) (links : ℕ → ℕ → Bool) (index size : ℕ)
    (hash : Hash) : System Transfer TransferEvent where
  init s := s.delivery = ⟨.new index size hash, [], []⟩ ∧
    (∀ q, (s.sessions q).Initial env (cap q)) ∧ (∀ q p, s.requested q p = []) ∧
    ∀ q p, s.received q p = 0
  step s e s' := s.next env b links index e = some s'

section Histories

variable {p q : ℕ} {r : BlockRequest} {block : List UInt8} {acts : List UploadAct}
  {log : List (ℕ × UploadAct)}

theorem mem_actsOf {act : UploadAct} : act ∈ actsOf p log ↔ (p, act) ∈ log := by
  simp [actsOf, List.mem_filterMap]

theorem mem_servedOf : (r, block) ∈ servedOf acts ↔ .served r block true ∈ acts := by
  rw [servedOf, List.mem_filterMap]
  constructor
  · rintro ⟨act, hact, hr⟩
    cases act with
    | served r' block' sent =>
      cases sent with
      | false => cases hr
      | true =>
        obtain ⟨rfl, rfl⟩ := Prod.mk.inj (Option.some.inj hr)
        exact hact
    | told | asked => simp at hr
  · exact fun h => ⟨_, h, rfl⟩

theorem forall_updateLink {α : Type} {P : ℕ → ℕ → α → Prop} {f : ℕ → ℕ → α} {a : α}
    (ha : P q p a) (h : ∀ q p, P q p (f q p)) : ∀ q' p', P q' p' (updateLink f q p a q' p') := by
  intro q' p'
  rw [updateLink]
  by_cases hq : q' = q
  · subst hq
    rw [Function.update_self]
    by_cases hp : p' = p
    · subst hp
      rwa [Function.update_self]
    · rw [Function.update_of_ne hp]
      exact h q' p'
  · rw [Function.update_of_ne hq]
    exact h q' p'

end Histories

namespace Transfer

variable {env : UploadEnv} {cap : ℕ → ℕ} {b : Build} {links : ℕ → ℕ → Bool} {index : ℕ}
  {piece : List UInt8} {hash : Hash} {s s' : Transfer} {p q : ℕ} {r : BlockRequest}

/-- A request for a block that the downloader has claimed. -/
def Claimed (index : ℕ) (s : Transfer) (r : BlockRequest) : Prop :=
  r.index.toNat = index ∧ (r.begin.toNat, r.length.toNat) ∈ s.delivery.claimed

/-- Requests are for claimed blocks, and the sessions got no others. -/
structure Inv (env : UploadEnv) (links : ℕ → ℕ → Bool) (index : ℕ) (s : Transfer) : Prop where
  sessions : ∀ q, Uploads.Inv env (s.sessions q)
  asked : ∀ q p, links q p = true → ∀ r, (p, .asked r) ∈ (s.sessions q).log → r ∈ s.requested q p
  claimed : ∀ q p, ∀ r ∈ s.requested q p, s.Claimed index r

/-- What comes next is the slice of the piece that was asked for. -/
theorem Inv.incoming (h : Inv env links index s)
    (hunique : ∀ data, env.Good index data → data = piece) (hlink : links q p = true)
    {block : List UInt8} (hnext : s.incoming q p = some (r, block)) :
    s.Claimed index r ∧ block = (piece.drop r.begin.toNat).take r.length.toNat := by
  have hmem : (p, .served r block true) ∈ (s.sessions q).log :=
    mem_actsOf.mp (mem_servedOf.mp (List.mem_of_getElem? hnext))
  obtain ⟨before, after, hlog⟩ := List.append_of_mem hmem
  obtain ⟨⟨earlier, hearlier, _⟩, data, hgood, _, hblock⟩ := (h.sessions q).log before _ after hlog
  have hasked : (p, .asked r) ∈ (s.sessions q).log := by
    rw [hlog]
    refine List.mem_append_left _ (mem_actsOf.mp ?_)
    rw [hearlier]
    exact List.mem_append_right _ List.mem_cons_self
  have hclaimed := h.claimed q p r (h.asked q p hlink r hasked)
  rw [hclaimed.1] at hgood
  exact ⟨hclaimed, by rw [hblock, hunique data hgood]⟩

theorem Inv.session (h : Inv env links index s) (hm : Layout env.storage.metaInfo)
    {e : UploadEvent} {u : Uploads} (hwhole : (s.sessions q).Whole env e)
    (hadmits : s.admits links q e = true) (hstep : (s.sessions q).next env e = some u) :
    Inv env links index { s with sessions := Function.update s.sessions q u } where
  sessions q' := by
    show Uploads.Inv env (Function.update s.sessions q u q')
    by_cases hq : q' = q
    · subst hq
      rw [Function.update_self]
      exact (h.sessions q').step hm hwhole hstep
    · rw [Function.update_of_ne hq]
      exact h.sessions q'
  asked q' p hlink r hr := by
    change (p, UploadAct.asked r) ∈ (Function.update s.sessions q u q').log at hr
    by_cases hq : q' = q
    · subst hq
      rw [Function.update_self] at hr
      rcases Uploads.log_of_next hstep with hlog | ⟨p', act, hlog, hasked⟩
      · exact h.asked q' p hlink r (hlog ▸ hr)
      rw [hlog] at hr
      rcases List.mem_append.mp hr with hr | hr
      · exact h.asked q' p hlink r hr
      · -- the request that was taken just now was the next one
        obtain ⟨rfl, rfl⟩ := Prod.mk.inj (List.mem_singleton.mp hr)
        rw [hasked r rfl, admits, hlink] at hadmits
        exact List.mem_of_getElem? (of_decide_eq_true hadmits)
    · rw [Function.update_of_ne hq] at hr
      exact h.asked q' p hlink r hr
  claimed := h.claimed

theorem Inv.step (h : Inv env links index s) (hm : Layout env.storage.metaInfo) {e : TransferEvent}
    (hwhole : s.Whole env e) (hstep : s.next env b links index e = some s') :
    Inv env links index s' := by
  cases e with
  | claim now count random =>
    obtain ⟨⟨c, claimed⟩, _, hstep⟩ := Option.bind_eq_some_iff.mp hstep
    obtain rfl := Option.some.inj hstep
    exact ⟨h.sessions, h.asked, fun q p r hr => ⟨(h.claimed q p r hr).1,
      List.mem_append_left _ (h.claimed q p r hr).2⟩⟩
  | ask q p r =>
    obtain ⟨⟨_, hindex, hclaimed⟩, hstep⟩ := Option.ite_none_right_eq_some.mp hstep
    obtain rfl := Option.some.inj hstep
    refine ⟨h.sessions, fun q' p' hlink r' hr' => ?_, ?_⟩
    · have hrequested := h.asked q' p' hlink r' hr'
      revert hrequested
      exact forall_updateLink (P := fun q' p' requested => r' ∈ s.requested q' p' → r' ∈ requested)
        (List.mem_append_left _) (fun _ _ => id) q' p'
    · refine forall_updateLink (P := fun _ _ requested => ∀ r ∈ requested, s.Claimed index r)
        (fun r' hr' => ?_) h.claimed
      rcases List.mem_append.mp hr' with hr' | hr'
      · exact h.claimed q p r' hr'
      · obtain rfl := List.mem_singleton.mp hr'
        exact ⟨hindex, List.contains_iff_mem.mp hclaimed⟩
  | session q e =>
    obtain ⟨hadmits, hstep⟩ := Option.ite_none_right_eq_some.mp hstep
    obtain ⟨u, hu, hstep⟩ := Option.bind_eq_some_iff.mp hstep
    obtain rfl := Option.some.inj hstep
    exact h.session hm hwhole hadmits hu
  | deliver q p =>
    obtain ⟨_, hstep⟩ := Option.ite_none_right_eq_some.mp hstep
    obtain ⟨⟨r, block⟩, _, hstep⟩ := Option.bind_eq_some_iff.mp hstep
    obtain rfl := Option.some.inj hstep
    exact ⟨h.sessions, h.asked, h.claimed⟩

/-- The downloader sees a delivery of the piece, whatever sessions it asks. -/
theorem refines (hm : Layout env.storage.metaInfo)
    (hunique : ∀ data, env.Good index data → data = piece) :
    (transfers env cap b links index piece.length hash).Refines (Whole env) (Inv env links index)
      (deliveries b index hash piece) Transfer.delivery where
  init s hs := by
    obtain ⟨_, hsessions, hrequested, _⟩ := hs
    refine ⟨fun q => Uploads.inv_of_initial (hsessions q), fun q p _ r hr => ?_, fun q p r hr => ?_⟩
    · rw [(hsessions q).log] at hr
      exact absurd hr List.not_mem_nil
    · rw [hrequested q p] at hr
      exact absurd hr List.not_mem_nil
  step s e s' h hwhole hstep := h.step hm hwhole hstep
  start s hs := hs.1
  shows s e s' h _ hstep := by
    cases e with
    | claim now count random =>
      obtain ⟨⟨c, claimed⟩, hclaim, hstep⟩ := Option.bind_eq_some_iff.mp hstep
      obtain rfl := Option.some.inj hstep
      refine .inr ⟨.claim now count random, ?_⟩
      show s.delivery.next b piece (.claim now count random) = _
      rw [PieceDelivery.next, hclaim]
      rfl
    | ask q p r =>
      obtain ⟨_, hstep⟩ := Option.ite_none_right_eq_some.mp hstep
      obtain rfl := Option.some.inj hstep
      exact .inl rfl
    | session q e =>
      obtain ⟨_, hstep⟩ := Option.ite_none_right_eq_some.mp hstep
      obtain ⟨u, _, hstep⟩ := Option.bind_eq_some_iff.mp hstep
      obtain rfl := Option.some.inj hstep
      exact .inl rfl
    | deliver q p =>
      obtain ⟨hlink, hstep⟩ := Option.ite_none_right_eq_some.mp hstep
      obtain ⟨⟨r, block⟩, hnext, hstep⟩ := Option.bind_eq_some_iff.mp hstep
      obtain rfl := Option.some.inj hstep
      obtain ⟨⟨_, hclaimed⟩, hblock⟩ := h.incoming hunique hlink hnext
      refine .inr ⟨.deliver r.begin.toNat r.length.toNat, ?_⟩
      show s.delivery.next b piece (.deliver r.begin.toNat r.length.toNat) = _
      rw [PieceDelivery.next, if_pos hclaimed, hblock]

theorem inv_of_reachable (hm : Layout env.storage.metaInfo)
    (hunique : ∀ data, env.Good index data → data = piece)
    (hs : (transfers env cap b links index piece.length hash).Reachable (Whole env) s) :
    Inv env links index s :=
  (refines hm hunique).toInvariant.reachable hs

section Progress

end Progress

end Transfer

section Seeding

/-- A downloader and sessions that have nothing. -/
def newTransfer : Transfer where
  delivery := ⟨.new 0 3 sampleHash, [], []⟩
  sessions _ := newUploads
  requested _ _ := []
  received _ _ := 0

def threeBytesTransfers : System Transfer TransferEvent :=
  transfers seedingEnv (fun _ => 64) .release (fun _ _ => true) 0 3 sampleHash

instance (env : UploadEnv) (s : Transfer) : (e : TransferEvent) → Decidable (s.Whole env e)
  | .session q e => inferInstanceAs (Decidable ((s.sessions q).Whole env e))
  | .claim .. | .ask .. | .deliver .. => .isTrue trivial

def Transfer.run (es : List TransferEvent) : Option Transfer :=
  System.runWhile (next seedingEnv .release (fun _ _ => true) 0)
    (fun s e => decide (s.Whole seedingEnv e)) newTransfer es

theorem Transfer.run_reachable {s : Transfer} {es : List TransferEvent} (h : run es = some s) :
    threeBytesTransfers.Reachable (Whole seedingEnv) s :=
  System.runWhile_reachable (fun _ _ _ h => h) (fun _ _ h => of_decide_eq_true h)
    (.init ⟨rfl, fun _ => initial_newUploads, fun _ _ => rfl, fun _ _ => rfl⟩) h

end Seeding

end Retorrent
