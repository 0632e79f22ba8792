import Retorrent.Network.SwarmInvariant

/-!
# What a peer leaves behind

`handle_peer` registers its peer in two tables and reserves blocks of collectors. The cleanup
stands behind its loop, so that a message that cannot be sent skips it, and it releases the
blocks that the loop remembers.
-/

namespace Retorrent

open Rust Systems

/-- What the choke algorithm knows of a peer. -/
structure PeerStats where
  downloaded : ℕ
  amChoking : Bool
  peerInterested : Bool

namespace PeerStats

/-- A peer that has just been registered. -/
def new : PeerStats := ⟨0, true, false⟩

/-- What a message of the peer adds. -/
def onMessage (stats : PeerStats) : PeerMessage → PeerStats
  | .interested => { stats with peerInterested := true }
  | .notInterested => { stats with peerInterested := false }
  | .piece _ _ data =>
    { stats with downloaded := min (stats.downloaded + data.length) (2 ^ 64 - 1) }
  | _ => stats

end PeerStats

/-- The loops of a session with the tables of their peers. A connection is named by the
address of its peer. `reservedBy` records which connection was the last to reserve a block of
a collector. -/
structure PeerTables where
  swarm : Swarm
  peerChokeStats : HashMap ℕ PeerStats
  /-- The peers that `broadcast_have` sends to. -/
  peerMsgTxs : Finset ℕ
  reservedBy : ℕ → ℕ → Option ℕ

/-- The events of the loops, the end of a round of `choke_loop`, and what other tasks make of
the piece manager. -/
inductive TablesEvent where
  | swarm (e : SwarmEvent)
  | choke (toUnchoke : List ℕ)
  | manager (pm : PieceManager)

/-- The offsets that a loop has reserved and not yet asked for. -/
def Stage.claimed : Stage → List ℕ
  | .sending claimed => claimed.map Prod.fst
  | _ => []

/-- The collector in progress that a loop takes up. -/
def Swarm.takesUp (s : Swarm) (l : PeerLoop) : LoopEvent → Option ℕ
  | .force =>
    match l.stage with
    | .forcing index => s.pm.inProgress.lookup index
    | _ => none
  | .pick order => (PieceManager.pickInProgressForPeer l.bitfield s.heap order).map Prod.snd
  | _ => none

namespace PeerTables

/-- `should_choke`. -/
def shouldChoke (s : PeerTables) (p : ℕ) : Bool :=
  ((s.peerChokeStats.lookup p).map PeerStats.amChoking).getD true

/-- What a claim of the connection has reserved is its own. -/
def reserve (s : PeerTables) (swarm : Swarm) (p a offset : ℕ) : Option ℕ :=
  match swarm.loops p with
  | some l =>
    if l.currentPiece = some a ∧ offset ∈ l.stage.claimed then some p else s.reservedBy a offset
  | none => s.reservedBy a offset

/-- A connection that begins has not reserved anything. -/
def forget (s : PeerTables) (p a offset : ℕ) : Option ℕ :=
  if s.reservedBy a offset = some p then none else s.reservedBy a offset

/-- What an event of a loop does to the tables. -/
def onLoop (s : PeerTables) (swarm : Swarm) (p : ℕ) : LoopEvent → Option PeerTables
  | .top choke => if choke = s.shouldChoke p then some { s with swarm := swarm } else none
  | .claim .. => some { s with swarm := swarm, reservedBy := s.reserve swarm p }
  | .message m => some { s with
      swarm := swarm
      peerChokeStats := s.peerChokeStats.modify p fun stats => stats.onMessage m }
  | .leave => some { s with
      swarm := swarm
      peerChokeStats := s.peerChokeStats.erase p
      peerMsgTxs := s.peerMsgTxs.erase p }
  -- a message that cannot be sent leaves them as they are
  | _ => some { s with swarm := swarm }

def onSwarm (s : PeerTables) (swarm : Swarm) : SwarmEvent → Option PeerTables
  | .connect p => some {
      swarm := swarm
      peerChokeStats := s.peerChokeStats.insert p .new
      peerMsgTxs := insert p s.peerMsgTxs
      reservedBy := s.forget p }
  | .loop p e => s.onLoop swarm p e
  | .verify .. => some { s with swarm := swarm }

def step (env : SwarmEnv) (s : PeerTables) : TablesEvent → Option PeerTables
  | .swarm e => do
    let swarm ← s.swarm.step env e
    s.onSwarm swarm e
  | .choke toUnchoke => some { s with
      peerChokeStats := s.peerChokeStats.mapValues fun p stats =>
        { stats with amChoking := p ∉ toUnchoke } }
  | .manager pm => some { s with swarm := { s.swarm with pm := pm } }

/-- A session without peers. -/
def start (pm : PieceManager) : PeerTables where
  swarm := .start pm
  peerChokeStats := ∅
  peerMsgTxs := ∅
  reservedBy _ _ := none

/-- The blocks of a collector that a connection has reserved, and that have neither come nor
been released. -/
def reservations (s : PeerTables) (p a : ℕ) : List ℕ :=
  match s.swarm.heap[a]? with
  | some c => c.issued.keys.filter fun offset => s.reservedBy a offset = some p
  | none => []

end PeerTables

/-- The runs of the peer loops with the tables of their peers. -/
def peerTables (env : SwarmEnv) (pm : PieceManager) : System PeerTables TablesEvent where
  init s := s = .start pm
  step s e s' := s.step env e = some s'

/-- `handle_peer` returns. -/
def TablesEvent.Returns (p : ℕ) (e : TablesEvent) : Prop :=
  e = .swarm (.loop p .leave) ∨ e = .swarm (.loop p .fail)

/-- When `handle_peer` returns, the peer is in neither table, and no block of its current
collector is left reserved for it. -/
def Cleaned (p : ℕ) (s : PeerTables) (e : TablesEvent) (s' : PeerTables) : Prop :=
  e.Returns p → p ∉ s'.peerChokeStats ∧ p ∉ s'.peerMsgTxs ∧
    ∀ l a, s.swarm.loops p = some l → l.currentPiece = some a → s'.reservations p a = []

/-- A loop may do this and still know its reservations: no message fails to be sent, no block
of another piece comes under the offset of a reserved one, and no collector is taken up again
on which there are reservations. -/
def PeerTables.knows (s : PeerTables) (p : ℕ) (l : PeerLoop) : LoopEvent → Bool
  | .fail => false
  | .message (.piece index begin _) =>
    l.currentPieceIndex == some index.toNat ||
      l.currentPiece.all fun a => begin.toNat ∉ s.reservations p a
  | e => (s.swarm.takesUp l e).all fun a => s.reservations p a == []

/-- The events of a connection are such that its loop knows its reservations. -/
def Remembers (p : ℕ) (s : PeerTables) : TablesEvent → Prop
  | .swarm (.loop q e) => q = p → (s.swarm.loops p).all (s.knows p · e) = true
  | _ => True

instance Remembers.decidable (p : ℕ) (s : PeerTables) : ∀ e, Decidable (Remembers p s e)
  | .swarm (.loop q e) =>
    inferInstanceAs (Decidable (q = p → (s.swarm.loops p).all (s.knows p · e) = true))
  | .swarm (.connect _) | .swarm (.verify ..) | .choke _ | .manager _ => isTrue trivial

/-- The loop knows of the block: it has asked for it, or is going to. -/
def PeerLoop.Covers (l : PeerLoop) (offset : ℕ) : Prop :=
  offset ∈ l.issuedByUs ∨ offset ∈ l.stage.claimed

theorem PeerLoop.Covers.issuedByUs {l : PeerLoop} {offset : ℕ} (h : l.Covers offset)
    (hstage : l.stage.claimed = []) : offset ∈ l.issuedByUs := by
  rw [Covers, hstage] at h
  exact h.resolve_right List.not_mem_nil

namespace Swarm

variable {env : SwarmEnv} {s s' : Swarm} {p a : ℕ} {l : PeerLoop} {c : PieceCollector}

/-- The block of the collector is reserved. -/
def Issued (s : Swarm) (a offset : ℕ) : Prop := ∃ c, s.heap[a]? = some c ∧ offset ∈ c.issued

/-- What is reserved has not come. -/
def Awaiting (s : Swarm) : Prop := ∀ c ∈ s.heap, c.Awaiting

theorem issued_setCollector {c' : PieceCollector} (hc : s.heap[a]? = some c) {b offset : ℕ}
    (h : (s.setCollector a c').Issued b offset) :
    b = a ∧ offset ∈ c'.issued ∨ b ≠ a ∧ s.Issued b offset := by
  obtain ⟨d, hd, hoffset⟩ := h
  replace hd : (s.heap.set a c')[b]? = some d := hd
  by_cases heq : b = a
  · subst heq
    rw [List.getElem?_set_self (List.getElem?_eq_some_iff.mp hc).1] at hd
    obtain rfl := Option.some.inj hd
    exact .inl ⟨rfl, hoffset⟩
  · rw [List.getElem?_set_ne (Ne.symm heq)] at hd
    exact .inr ⟨heq, d, hd, hoffset⟩

/-- A collector on which nothing is reserved anew. -/
theorem issued_of_setCollector {c' : PieceCollector} (hc : s.heap[a]? = some c)
    (hissued : ∀ offset ∈ c'.issued, offset ∈ c.issued) {b offset : ℕ}
    (h : (s.setCollector a c').Issued b offset) : s.Issued b offset := by
  rcases issued_setCollector hc h with ⟨rfl, hoffset⟩ | ⟨_, hold⟩
  · exact ⟨c, hc, hissued offset hoffset⟩
  · exact hold

theorem Awaiting.setCollector (h : s.Awaiting) {c' : PieceCollector} (hc' : c'.Awaiting) :
    (s.setCollector a c').Awaiting := by
  intro d hd
  rcases List.mem_or_eq_of_mem_set hd with hold | rfl
  · exact h d hold
  · exact hc'

/-- The release of the blocks that a loop remembers. -/
theorem mem_foldl_erase {offsets : List ℕ} {issued : HashMap ℕ Instant} {offset : ℕ}
    (h : offset ∈ offsets.foldl (fun issued offset => issued.erase offset) issued) :
    offset ∉ offsets ∧ offset ∈ issued := by
  induction offsets generalizing issued with
  | nil => exact ⟨List.not_mem_nil, h⟩
  | cons first rest ih =>
    obtain ⟨hrest, herase⟩ := ih h
    obtain ⟨hne, hissued⟩ := AList.mem_erase.mp herase
    exact ⟨mt List.mem_cons.mp (not_or.mpr ⟨hne, hrest⟩), hissued⟩

/-- What a turn of a loop does to the reservations and to what the loop knows of them. -/
inductive Turn (s : Swarm) (p : ℕ) (l : PeerLoop) : LoopEvent → Swarm → Prop where
  | keep {e : LoopEvent} {pm : PieceManager} {l' : PeerLoop} :
      l'.currentPiece = l.currentPiece → (∀ offset, l.Covers offset → l'.Covers offset) →
      Turn s p l e ({ s with pm := pm }.setLoop p l')
  | start {e : LoopEvent} {pm : PieceManager} {index size numBlocks : ℕ} {hash : Hash} :
      Turn s p l e
        ({ s with pm := pm, heap := s.heap ++ [PieceCollector.new index size hash] }.setLoop p
          (l.attach index s.heap.length numBlocks))
  | takeUp {e : LoopEvent} {index a numBlocks : ℕ} : s.takesUp l e = some a →
      Turn s p l e (s.setLoop p (l.attach index a numBlocks))
  | claim {now : Instant} {shuffled claimed : List (ℕ × ℕ)} {a : ℕ} {c : PieceCollector}
      {issued : HashMap ℕ Instant} : l.stage.claimed = [] → l.currentPiece = some a →
      s.heap[a]? = some c →
      (∀ offset ∈ issued,
        offset ∈ c.issued ∨ offset ∈ claimed.map Prod.fst ∧ offset ∉ c.blocks) →
      Turn s p l (.claim now shuffled)
        ((s.setCollector a { c with issued := issued }).setLoop p (l.goTo (.sending claimed)))
  | answer {index begin : UInt32} {data : List UInt8} {a : ℕ} {c : PieceCollector}
      {stage : Stage} : l.stage.claimed = [] → l.currentPieceIndex = some index.toNat →
      l.currentPiece = some a → s.heap[a]? = some c →
      Turn s p l (.message (.piece index begin data))
        ((s.setCollector a (c.addBlock begin.toNat data).1).setLoop p
          ((l.answer index.toNat begin.toNat).goTo stage))
  | stray {index begin : UInt32} {data : List UInt8} : l.stage.claimed = [] →
      l.currentPieceIndex ≠ some index.toNat ∨ l.currentPiece = none →
      Turn s p l (.message (.piece index begin data))
        (s.setLoop p ((l.answer index.toNat begin.toNat).goTo .top))
  | drop {e : LoopEvent} {verifying : ℕ → Option VerifyTask} :
      Turn s p l e ({ s with verifying := verifying }.setLoop p l.reset)
  | leave {a : ℕ} {c : PieceCollector} : l.stage.claimed = [] → l.currentPiece = some a →
      s.heap[a]? = some c →
      Turn s p l .leave
        ((s.setCollector a { c with
          issued := l.issuedByUs.foldl (fun issued offset => issued.erase offset) c.issued
        }).endLoop p)
  | gone {e : LoopEvent} : e = .fail ∨ l.currentPiece = none → Turn s p l e (s.endLoop p)

section Inversion

/-- The loop only goes to another stage, and sends nothing before or after. -/
theorem turn_goTo (hold : l.stage.claimed = []) {stage : Stage} {e : LoopEvent} :
    Turn s p l e (s.setLoop p (l.goTo stage)) :=
  @Turn.keep s p l e s.pm (l.goTo stage) rfl fun _ h => .inl (h.issuedByUs hold)

theorem onRequest_turn (hstage : l.stage = .request) {sequential : Bool} {e : LoopEvent}
    (h : s.onRequest env p l sequential = some s') : Turn s p l e s' := by
  have hold : l.stage.claimed = [] := by rw [hstage]; rfl
  rw [onRequest] at h
  split at h
  · exact Option.some.inj h ▸ turn_goTo hold
  · split at h
    · exact Option.some.inj h ▸ turn_goTo hold
    · obtain ⟨candidates, _, heq⟩ := Option.bind_eq_some_iff.mp h
      exact Option.some.inj heq ▸ turn_goTo hold

/-- A new collector is attached. -/
theorem turn_start {index a : ℕ} {pm : PieceManager} {heap : Heap} {e : LoopEvent}
    (hstart : PieceManager.startPiece env.build index s.pm s.heap = .ok (a, pm, heap))
    (h : { s with pm := pm, heap := heap }.onAttach p l index a = some s') : Turn s p l e s' := by
  obtain ⟨size, hash, rfl, rfl, rfl⟩ := PieceManager.startPiece_eq_ok hstart
  obtain ⟨c, _, heq⟩ := Option.bind_eq_some_iff.mp h
  exact Option.some.inj heq ▸ .start

theorem onStart_turn {e : LoopEvent} (h : s.onStart env p l = some s') : Turn s p l e s' := by
  rw [onStart] at h
  split at h
  · next hstage =>
    have hold : l.stage.claimed = [] := by rw [hstage]; rfl
    exact Option.some.inj h ▸ turn_goTo hold
  · next index rest endgame hstage =>
    have hold : l.stage.claimed = [] := by rw [hstage]; rfl
    split at h
    · next htry => exact turn_start (PieceManager.tryStartPiece_eq_some htry).2 h
    · exact Option.some.inj h ▸ turn_goTo hold
    · simp at h
  · simp at h

theorem onForce_turn (h : s.onForce env p l = some s') : Turn s p l .force s' := by
  rw [onForce] at h
  split at h
  · next index hstage =>
    split at h
    · next a pm heap hforce =>
      rcases PieceManager.forceStartPiece_eq_ok hforce with ⟨hlookup, rfl, rfl⟩ | ⟨_, hstart⟩
      · obtain ⟨c, _, heq⟩ := Option.bind_eq_some_iff.mp h
        have htakes : s.takesUp l .force = some a := by simpa [takesUp, hstage] using hlookup
        exact Option.some.inj heq ▸ .takeUp htakes
      · exact turn_start hstart h
    · simp at h
  · simp at h

theorem onPick_turn (hstage : l.stage = .picking) {order : List (ℕ × ℕ)}
    (h : s.onPick p l order = some s') : Turn s p l (.pick order) s' := by
  have hold : l.stage.claimed = [] := by rw [hstage]; rfl
  obtain ⟨_, h⟩ := Option.ite_none_right_eq_some.mp h
  split at h
  · next index a hpick =>
    obtain ⟨c, _, heq⟩ := Option.bind_eq_some_iff.mp h
    have htakes : s.takesUp l (.pick order) = some a := by simp [takesUp, hpick]
    exact Option.some.inj heq ▸ .takeUp htakes
  · exact Option.some.inj h ▸ turn_goTo hold

theorem onClaim_turn (hstage : l.stage = .claiming) {now : Instant} {shuffled : List (ℕ × ℕ)}
    (h : s.onClaim env p l now shuffled = some s') : Turn s p l (.claim now shuffled) s' := by
  have hold : l.stage.claimed = [] := by rw [hstage]; rfl
  rw [onClaim] at h
  dsimp only at h
  split at h
  · exact Option.some.inj h ▸ turn_goTo hold
  · obtain ⟨a, ha, h⟩ := Option.bind_eq_some_iff.mp h
    obtain ⟨c, hc, h⟩ := Option.bind_eq_some_iff.mp h
    obtain ⟨missing, hmissing, h⟩ := Option.bind_eq_some_iff.mp h
    obtain ⟨hperm, heq⟩ := Option.ite_none_right_eq_some.mp h
    obtain rfl := Option.some.inj heq
    refine .claim hold ha hc fun offset hoffset => ?_
    exact PieceCollector.mem_issued_claimBlocks (Outcome.toOption_eq_some.mp hmissing) hperm hoffset

theorem onSend_turn {e : LoopEvent} (h : s.onSend p l = some s') : Turn s p l e s' := by
  rw [onSend] at h
  split at h
  · next hstage =>
    have hold : l.stage.claimed = [] := by rw [hstage]; rfl
    exact Option.some.inj h ▸ turn_goTo hold
  · next offset length rest hstage =>
    obtain rfl := Option.some.inj h
    refine @Turn.keep s p l e s.pm _ rfl ?_
    intro other hcovers
    -- the block that is asked for is remembered instead
    have hkept : other = offset ∨ other ∈ l.issuedByUs →
        other ∈ (l.sendRequest offset).issuedByUs := by
      rw [PeerLoop.sendRequest]
      dsimp only
      split
      · rintro (rfl | hother)
        · assumption
        · exact hother
      · exact List.mem_cons.mpr
    rw [PeerLoop.Covers, hstage] at hcovers
    rcases hcovers with hother | hother
    · exact .inl (hkept (.inr hother))
    · rcases List.mem_cons.mp hother with rfl | hother
      · exact .inl (hkept (.inl rfl))
      · exact .inr hother
  · simp at h

theorem onPiece_turn (hstage : l.stage = .receiving) {index begin : UInt32} {data : List UInt8}
    (h : s.onPiece p l index.toNat begin.toNat data = some s') :
    Turn s p l (.message (.piece index begin data)) s' := by
  have hold : l.stage.claimed = [] := by rw [hstage]; rfl
  rw [onPiece] at h
  dsimp only at h
  split at h
  · next hindex => exact Option.some.inj h ▸ .stray hold (.inl hindex)
  · next hindex =>
    replace hindex : l.currentPieceIndex = some index.toNat := not_not.mp hindex
    split at h
    · next ha => exact Option.some.inj h ▸ .stray hold (.inr ha)
    · next a ha =>
      obtain ⟨c, hc, heq⟩ := Option.bind_eq_some_iff.mp h
      exact Option.some.inj heq ▸ .answer hold hindex ha hc

theorem onMessage_turn (hstage : l.stage = .receiving) {m : PeerMessage}
    (h : s.onMessage env p l m = some s') : Turn s p l (.message m) s' := by
  have hold : l.stage.claimed = [] := by rw [hstage]; rfl
  cases m with
  | piece index begin data => exact onPiece_turn hstage h
  | have_ index =>
    rw [onMessage] at h
    split at h
    · exact Option.some.inj h ▸ turn_goTo hold
    · obtain ⟨pm, _, heq⟩ := Option.bind_eq_some_iff.mp h
      exact Option.some.inj heq ▸ .keep rfl fun _ hcovers => .inl (hcovers.issuedByUs hold)
  | bitfield bits =>
    rw [onMessage] at h
    split at h
    · exact Option.some.inj h ▸ turn_goTo hold
    · obtain ⟨pm, _, heq⟩ := Option.bind_eq_some_iff.mp h
      exact Option.some.inj heq ▸ .keep rfl fun _ hcovers => .inl (hcovers.issuedByUs hold)
  | choke | unchoke | keepAlive | interested | notInterested | request | cancel | port
  | extended =>
    obtain rfl := Option.some.inj h
    exact @Turn.keep s p l _ s.pm _ rfl fun _ hcovers => .inl (hcovers.issuedByUs hold)

theorem onAssemble_turn {task : ℕ} {e : LoopEvent} (h : s.onAssemble p l task = some s') :
    Turn s p l e s' := by
  obtain ⟨a, _, h⟩ := Option.bind_eq_some_iff.mp h
  obtain ⟨index, _, h⟩ := Option.bind_eq_some_iff.mp h
  obtain ⟨c, _, h⟩ := Option.bind_eq_some_iff.mp h
  split at h
  · exact Option.some.inj h ▸ @Turn.drop s p l e s.verifying
  · next data _ =>
    obtain ⟨_, heq⟩ := Option.ite_none_right_eq_some.mp h
    obtain rfl := Option.some.inj heq
    exact @Turn.drop s p l e (Function.update s.verifying task
      (some ⟨.hashing, index, data, c.expectedHash⟩))

theorem onLeave_turn (hstage : l.stage = .top ∨ l.stage = .receiving)
    (h : s.onLeave p l = some s') : Turn s p l .leave s' := by
  have hold : l.stage.claimed = [] := by rcases hstage with hstage | hstage <;> rw [hstage] <;> rfl
  rw [onLeave] at h
  split at h
  · next ha => exact Option.some.inj h ▸ .gone (.inr ha)
  · next a ha =>
    obtain ⟨c, hc, heq⟩ := Option.bind_eq_some_iff.mp h
    exact Option.some.inj heq ▸ .leave hold ha hc

/-- Every event of a loop is one of these turns. -/
theorem onLoop_turn {e : LoopEvent} (h : s.onLoop env p l e = some s') : Turn s p l e s' := by
  cases e with
  | top shouldChoke =>
    obtain ⟨hstage, heq⟩ := Option.ite_none_right_eq_some.mp h
    obtain rfl := Option.some.inj heq
    have hkeep : (l.setChoking shouldChoke).currentPiece = l.currentPiece ∧
        (l.setChoking shouldChoke).issuedByUs = l.issuedByUs := by
      rw [PeerLoop.setChoking]
      split
      · exact ⟨rfl, rfl⟩
      · split <;> exact ⟨rfl, rfl⟩
    refine @Turn.keep s p l _ s.pm _ hkeep.1 fun offset hcovers => .inl ?_
    have hold : l.stage.claimed = [] := by rw [hstage]; rfl
    exact hkeep.2.symm ▸ hcovers.issuedByUs hold
  | request sequential =>
    obtain ⟨hstage, h⟩ := Option.ite_none_right_eq_some.mp h
    exact onRequest_turn hstage h
  | start => exact onStart_turn h
  | force => exact onForce_turn h
  | pick order =>
    obtain ⟨hstage, h⟩ := Option.ite_none_right_eq_some.mp h
    exact onPick_turn hstage h
  | claim now shuffled =>
    obtain ⟨hstage, h⟩ := Option.ite_none_right_eq_some.mp h
    exact onClaim_turn hstage h
  | send => exact onSend_turn h
  | idle =>
    obtain ⟨hstage, heq⟩ := Option.ite_none_right_eq_some.mp h
    have hold : l.stage.claimed = [] := by rw [hstage]; rfl
    exact Option.some.inj heq ▸ turn_goTo hold
  | message m =>
    obtain ⟨hstage, h⟩ := Option.ite_none_right_eq_some.mp h
    exact onMessage_turn hstage h
  | assemble task =>
    obtain ⟨_, h⟩ := Option.ite_none_right_eq_some.mp h
    exact onAssemble_turn h
  | leave =>
    obtain ⟨hstage, h⟩ := Option.ite_none_right_eq_some.mp h
    exact onLeave_turn hstage h
  | fail => exact Option.some.inj h ▸ .gone (.inl rfl)

end Inversion

/-- Verification looks at no reservation. -/
theorem verify_frame {v : ℕ} {e : VerifyEvent} (h : s.step env (.verify v e) = some s') :
    s'.heap = s.heap ∧ s'.loops = s.loops := by
  cases step_cases h <;> exact ⟨rfl, rfl⟩

namespace Turn

variable {e : LoopEvent}

/-- The other loops stay as they are. -/
theorem loops_of_ne (h : Turn s p l e s') {q : ℕ} (hne : q ≠ p) : s'.loops q = s.loops q := by
  cases h with
  | leave | gone => exact (loops_endLoop _ p q).trans (if_neg hne)
  | _ => exact (loops_setLoop _ p q _).trans (if_neg hne)

/-- A block is reserved by a claim only. -/
theorem issued (h : Turn s p l e s') {a offset : ℕ} (hissued : s'.Issued a offset) :
    s.Issued a offset ∨ ∃ now shuffled l', e = .claim now shuffled ∧ s'.loops p = some l' ∧
      l'.currentPiece = some a ∧ offset ∈ l'.stage.claimed := by
  cases h with
  | keep | takeUp | stray | drop | gone => exact .inl hissued
  | start =>
    obtain ⟨c, hc, hoffset⟩ := hissued
    replace hc : (s.heap ++ [_])[a]? = some c := hc
    by_cases hlt : a < s.heap.length
    · rw [List.getElem?_append_left hlt] at hc
      exact .inl ⟨c, hc, hoffset⟩
    · rw [List.getElem?_append_right (Nat.le_of_not_lt hlt)] at hc
      obtain rfl := List.mem_singleton.mp (List.mem_of_getElem? hc)
      exact absurd hoffset (AList.notMem_empty offset)
  | @claim now shuffled claimed b c issued hold hb hc hclaimed =>
    rcases issued_setCollector hc hissued with ⟨rfl, hoffset⟩ | ⟨_, hother⟩
    · rcases hclaimed offset hoffset with hbefore | ⟨hnew, _⟩
      · exact .inl ⟨c, hc, hbefore⟩
      · refine .inr ⟨now, shuffled, l.goTo (.sending claimed), rfl, ?_, hb, hnew⟩
        exact Function.update_self ..
    · exact .inl hother
  | answer hold hindex hb hc =>
    exact .inl (issued_of_setCollector hc (fun _ => PieceCollector.mem_issued_addBlock) hissued)
  | leave hold hb hc =>
    exact .inl (issued_of_setCollector hc (fun _ hoffset => (mem_foldl_erase hoffset).2) hissued)

/-- What is reserved still has not come. -/
theorem awaiting (h : Turn s p l e s') (hs : s.Awaiting) : s'.Awaiting := by
  cases h with
  | keep | takeUp | stray | drop | gone => exact hs
  | start =>
    intro c hc
    rcases List.mem_append.mp hc with hold | hnew
    · exact hs c hold
    · obtain rfl := List.mem_singleton.mp hnew
      exact PieceCollector.awaiting_new _ _ _
  | claim hold hb hc hclaimed =>
    apply hs.setCollector
    apply (hs _ (List.mem_of_getElem? hc)).setIssued
    exact fun offset hoffset => (hclaimed offset hoffset).imp_right And.right
  | answer hold hindex hb hc =>
    exact hs.setCollector ((hs _ (List.mem_of_getElem? hc)).addBlock _ _)
  | leave hold hb hc =>
    apply hs.setCollector
    apply (hs _ (List.mem_of_getElem? hc)).setIssued
    exact fun offset hoffset => .inl (mem_foldl_erase hoffset).2

end Turn

/-- Leaving releases the blocks that the loop remembers. -/
theorem issued_onLeave (ha : l.currentPiece = some a) (h : s.onLeave p l = some s') {offset : ℕ}
    (hissued : s'.Issued a offset) : offset ∉ l.issuedByUs ∧ s.Issued a offset := by
  rw [onLeave, ha] at h
  obtain ⟨c, hc, heq⟩ := Option.bind_eq_some_iff.mp h
  obtain rfl := Option.some.inj heq
  rcases issued_setCollector hc hissued with ⟨_, hoffset⟩ | ⟨hne, _⟩
  · obtain ⟨hforgotten, hbefore⟩ := mem_foldl_erase hoffset
    exact ⟨hforgotten, c, hc, hbefore⟩
  · exact absurd rfl hne

theorem loops_onLeave (h : s.onLeave p l = some s') : s'.loops p = none := by
  rw [onLeave] at h
  split at h
  · obtain rfl := Option.some.inj h
    exact Function.update_self ..
  · obtain ⟨c, _, heq⟩ := Option.bind_eq_some_iff.mp h
    obtain rfl := Option.some.inj heq
    exact Function.update_self ..

end Swarm

namespace PeerTables

variable {env : SwarmEnv} {s s' : PeerTables} {swarm : Swarm} {p q a offset : ℕ} {l : PeerLoop}

theorem mem_reservations :
    offset ∈ s.reservations p a ↔ s.reservedBy a offset = some p ∧ s.swarm.Issued a offset := by
  unfold reservations Swarm.Issued
  cases s.swarm.heap[a]? with
  | none => simp
  | some c => simp [AList.mem_keys, and_comm]

/-- An event of a loop passes the reservations on to who made them. -/
theorem onLoop_reservedBy {e : LoopEvent} (h : s.onLoop swarm q e = some s') :
    s'.swarm = swarm ∧ (s'.reservedBy = s.reservedBy ∧ (∀ now shuffled, e ≠ .claim now shuffled) ∨
      s'.reservedBy = s.reserve swarm q) := by
  cases e with
  | top choke =>
    obtain ⟨_, heq⟩ := Option.ite_none_right_eq_some.mp h
    obtain rfl := Option.some.inj heq
    exact ⟨rfl, .inl ⟨rfl, by simp⟩⟩
  | claim now shuffled =>
    obtain rfl := Option.some.inj h
    exact ⟨rfl, .inr rfl⟩
  | _ =>
    obtain rfl := Option.some.inj h
    exact ⟨rfl, .inl ⟨rfl, by simp⟩⟩

/-- What a step does. -/
inductive Move (env : SwarmEnv) (s : PeerTables) : TablesEvent → PeerTables → Prop where
  | choke {toUnchoke : List ℕ} : Move env s (.choke toUnchoke)
      { s with peerChokeStats := s.peerChokeStats.mapValues fun p stats =>
        { stats with amChoking := p ∉ toUnchoke } }
  | manager {pm : PieceManager} :
      Move env s (.manager pm) { s with swarm := { s.swarm with pm := pm } }
  | connect {q : ℕ} : Move env s (.swarm (.connect q)) {
      swarm := s.swarm.setLoop q .new
      peerChokeStats := s.peerChokeStats.insert q .new
      peerMsgTxs := insert q s.peerMsgTxs
      reservedBy := s.forget q }
  | loop {q : ℕ} {e : LoopEvent} {l : PeerLoop} {s' : PeerTables} : s.swarm.loops q = some l →
      s.swarm.onLoop env q l e = some s'.swarm → s.onLoop s'.swarm q e = some s' →
      Move env s (.swarm (.loop q e)) s'
  | verify {v : ℕ} {e : VerifyEvent} {swarm : Swarm} : swarm.heap = s.swarm.heap →
      swarm.loops = s.swarm.loops →
      Move env s (.swarm (.verify v e)) { s with swarm := swarm }

theorem step_cases {e : TablesEvent} (h : s.step env e = some s') : Move env s e s' := by
  cases e with
  | choke toUnchoke => exact Option.some.inj h ▸ .choke
  | manager pm => exact Option.some.inj h ▸ .manager
  | swarm e =>
    obtain ⟨swarm, hswarm, h⟩ := Option.bind_eq_some_iff.mp h
    cases e with
    | connect q =>
      obtain ⟨_, heq⟩ := Option.ite_none_right_eq_some.mp hswarm
      obtain rfl := Option.some.inj heq
      exact Option.some.inj h ▸ .connect
    | loop q e =>
      obtain ⟨l, hl, hswarm⟩ := Option.bind_eq_some_iff.mp hswarm
      obtain ⟨rfl, _⟩ := onLoop_reservedBy h
      exact .loop hl hswarm h
    | verify v e =>
      obtain ⟨hheap, hloops⟩ := Swarm.verify_frame hswarm
      exact Option.some.inj h ▸ .verify hheap hloops

/-- A loop adds no reservation to those of a connection but what it is going to ask for. -/
theorem reservations_onLoop {e : LoopEvent} (hturn : s.swarm.Turn q l e swarm)
    (h : s.onLoop swarm q e = some s') (hoffset : offset ∈ s'.reservations p a) :
    offset ∈ s.reservations p a ∨ ∃ l', s'.swarm.loops p = some l' ∧
      l'.currentPiece = some a ∧ offset ∈ l'.stage.claimed := by
  obtain ⟨hown, hissued⟩ := mem_reservations.mp hoffset
  obtain ⟨rfl, ⟨hkept, hclaim⟩ | hreserve⟩ := onLoop_reservedBy h
  · rcases hturn.issued hissued with hbefore | ⟨now, shuffled, _, hnow, _⟩
    · exact .inl (mem_reservations.mpr ⟨hkept ▸ hown, hbefore⟩)
    · exact absurd hnow (hclaim now shuffled)
  · rw [hreserve, reserve] at hown
    have hbefore (hown : s.reservedBy a offset = some p)
        (hnot : ∀ l', s'.swarm.loops q = some l' →
          ¬ (l'.currentPiece = some a ∧ offset ∈ l'.stage.claimed)) :
        offset ∈ s.reservations p a := by
      rcases hturn.issued hissued with hbefore | ⟨_, _, l', _, hl', hclaimed⟩
      · exact mem_reservations.mpr ⟨hown, hbefore⟩
      · exact absurd hclaimed (hnot l' hl')
    split at hown
    · next l' hl' =>
      split at hown
      · next hclaimed =>
        obtain rfl := Option.some.inj hown
        exact .inr ⟨l', hl', hclaimed⟩
      · next hnot =>
        refine .inl (hbefore hown fun l'' hl'' => ?_)
        obtain rfl := Option.some.inj (hl'.symm.trans hl'')
        exact hnot
    · next hnone =>
      refine .inl (hbefore hown fun l'' hl'' => ?_)
      simp [hnone] at hl''

/-- Where a connection begins, nothing is reserved anew. -/
theorem forget_eq_some (h : s.forget q a offset = some p) :
    s.reservedBy a offset = some p := by
  rw [forget] at h
  split at h
  · simp at h
  · exact h

/-- The same for every event. -/
theorem reservations_step {e : TablesEvent} (h : s.step env e = some s')
    (hoffset : offset ∈ s'.reservations p a) :
    offset ∈ s.reservations p a ∨ ∃ l', s'.swarm.loops p = some l' ∧
      l'.currentPiece = some a ∧ offset ∈ l'.stage.claimed := by
  cases step_cases h with
  | choke | manager => exact .inl hoffset
  | connect =>
    obtain ⟨hown, hissued⟩ := mem_reservations.mp hoffset
    exact .inl (mem_reservations.mpr ⟨forget_eq_some hown, hissued⟩)
  | loop hl hswarm hon => exact reservations_onLoop (Swarm.onLoop_turn hswarm) hon hoffset
  | verify hheap hloops =>
    obtain ⟨hown, c, hc, hissued⟩ := mem_reservations.mp hoffset
    exact .inl (mem_reservations.mpr ⟨hown, c, hheap ▸ hc, hissued⟩)

/-- A collector that a loop takes up has no reservations of it. -/
theorem reservations_of_takesUp {e : LoopEvent} (h : s.knows p l e = true)
    (htakes : s.swarm.takesUp l e = some a) : s.reservations p a = [] := by
  cases e with
  | force | pick =>
    rw [knows, htakes] at h
    · exact eq_of_beq h
    · simp
    · simp
  | _ => simp [Swarm.takesUp] at htakes

/-- A block of another piece comes under no offset that is reserved. -/
theorem notMem_of_knows {index begin : UInt32} {data : List UInt8}
    (h : s.knows p l (.message (.piece index begin data)) = true)
    (hindex : l.currentPieceIndex ≠ some index.toNat) (ha : l.currentPiece = some a) :
    begin.toNat ∉ s.reservations p a := by
  rw [knows, Bool.or_eq_true] at h
  rcases h with hcurrent | hours
  · exact absurd (eq_of_beq hcurrent) hindex
  · rw [ha] at hours
    exact of_decide_eq_true hours

end PeerTables

/-- The invariant of a connection: its loop knows of every block that is reserved for it on its
current collector. -/
structure TablesInv (p : ℕ) (s : PeerTables) : Prop where
  awaiting : s.swarm.Awaiting
  covered : ∀ l a, s.swarm.loops p = some l → l.currentPiece = some a →
    ∀ offset ∈ s.reservations p a, l.Covers offset

section Invariant

variable {env : SwarmEnv} {s s' : PeerTables} {swarm : Swarm} {p a offset : ℕ} {l : PeerLoop}

theorem tablesInv_start (pm : PieceManager) : TablesInv p (.start pm) where
  awaiting c hc := by simp [PeerTables.start, Swarm.start] at hc
  covered l a hl := by simp [PeerTables.start, Swarm.start] at hl

/-- What a turn of the loop leaves of the reservations that it knew of, it still knows of. -/
theorem covers_turn (h : TablesInv p s) (hl : s.swarm.loops p = some l) {e : LoopEvent}
    (hturn : s.swarm.Turn p l e swarm) (hknows : s.knows p l e = true) {l' : PeerLoop}
    (hl' : swarm.loops p = some l') (ha : l'.currentPiece = some a)
    (hbefore : offset ∈ s.reservations p a) (hissued : swarm.Issued a offset) :
    l'.Covers offset := by
  have hnext (x : PeerLoop) (t : Swarm) (hx : (t.setLoop p x).loops p = some l') : x = l' := by
    rw [Swarm.loops_setLoop, if_pos rfl] at hx
    exact Option.some.inj hx
  cases hturn with
  | keep hpiece hcovers =>
    obtain rfl := hnext _ _ hl'
    exact hcovers offset (h.covered l a hl (hpiece ▸ ha) offset hbefore)
  | start =>
    -- nothing is reserved on a collector that does not exist yet
    obtain rfl := hnext _ _ hl'
    obtain rfl := Option.some.inj ha
    obtain ⟨_, c, hc, _⟩ := PeerTables.mem_reservations.mp hbefore
    simp at hc
  | takeUp htakes =>
    obtain rfl := hnext _ _ hl'
    obtain rfl := Option.some.inj ha
    rw [PeerTables.reservations_of_takesUp hknows htakes] at hbefore
    simp at hbefore
  | claim hold hb hc hclaimed =>
    obtain rfl := hnext _ _ hl'
    exact .inl ((h.covered l a hl ha offset hbefore).issuedByUs hold)
  | @answer index begin data b c stage hold hindex hb hc =>
    obtain rfl := hnext _ _ hl'
    obtain rfl := Option.some.inj (hb.symm.trans ha)
    -- the block that came is no longer reserved
    have hne : offset ≠ begin.toNat := by
      rintro rfl
      rcases Swarm.issued_setCollector hc hissued with ⟨_, hin⟩ | ⟨hne, _⟩
      · exact (h.awaiting c (List.mem_of_getElem? hc)).notMem_addBlock _ _ hin
      · exact hne rfl
    have hremembered := (h.covered l b hl hb offset hbefore).issuedByUs hold
    exact .inl ((List.mem_erase_of_ne hne).mpr hremembered)
  | @stray index begin data hold hstray =>
    obtain rfl := hnext _ _ hl'
    -- the loop forgets the offset of a block of another piece
    have hne : offset ≠ begin.toNat := by
      rintro rfl
      rcases hstray with hother | hnone
      · exact PeerTables.notMem_of_knows hknows hother ha hbefore
      · exact absurd (hnone.symm.trans ha) (by simp)
    have hremembered := (h.covered l a hl ha offset hbefore).issuedByUs hold
    exact .inl ((List.mem_erase_of_ne hne).mpr hremembered)
  | drop =>
    obtain rfl := hnext _ _ hl'
    simp [PeerLoop.reset] at ha
  | leave | gone =>
    rw [Swarm.loops_endLoop, if_pos rfl] at hl'
    simp at hl'

/-- What has not come stays so in every step. -/
theorem awaiting_step {e : TablesEvent} (h : s.swarm.Awaiting) (hstep : s.step env e = some s') :
    s'.swarm.Awaiting := by
  cases PeerTables.step_cases hstep with
  | choke | manager | connect => exact h
  | loop hl hswarm hon => exact (Swarm.onLoop_turn hswarm).awaiting h
  | verify hheap hloops =>
    intro c hc
    exact h c (hheap ▸ hc)

theorem TablesInv.step {e : TablesEvent} (h : TablesInv p s) (hguard : Remembers p s e)
    (hstep : s.step env e = some s') : TablesInv p s' := by
  refine ⟨awaiting_step h.awaiting hstep, ?_⟩
  intro l' a hl' ha offset hoffset
  rcases PeerTables.reservations_step hstep hoffset with hbefore | ⟨l'', hl'', _, hclaimed⟩
  swap
  · obtain rfl := Option.some.inj (hl'.symm.trans hl'')
    exact .inr hclaimed
  cases PeerTables.step_cases hstep with
  | choke | manager => exact h.covered l' a hl' ha offset hbefore
  | @connect q =>
    replace hl' := (Swarm.loops_setLoop s.swarm q p .new).symm.trans hl'
    split at hl'
    · obtain rfl := Option.some.inj hl'
      simp [PeerLoop.new] at ha
    · exact h.covered l' a hl' ha offset hbefore
  | @loop q e l _ hl hswarm hon =>
    have hturn := Swarm.onLoop_turn hswarm
    by_cases heq : p = q
    · subst heq
      have hknows := (Option.all_eq_true _ _).mp (hguard rfl) l hl
      exact covers_turn h hl hturn hknows hl' ha hbefore
        (PeerTables.mem_reservations.mp hoffset).2
    · rw [hturn.loops_of_ne heq] at hl'
      exact h.covered l' a hl' ha offset hbefore
  | verify hheap hloops => exact h.covered l' a (hloops ▸ hl') ha offset hbefore

/-- The end of the loop cleans up, where the loop knows its reservations. -/
theorem cleaned_of_inv {e : TablesEvent} (h : TablesInv p s) (hguard : Remembers p s e)
    (hstep : s.step env e = some s') : Cleaned p s e s' := by
  rintro (rfl | rfl)
  all_goals
    obtain ⟨swarm, hswarm, hon⟩ := Option.bind_eq_some_iff.mp hstep
    obtain ⟨l, hl, hswarm⟩ := Option.bind_eq_some_iff.mp hswarm
  · obtain ⟨hstage, hleave⟩ := Option.ite_none_right_eq_some.mp hswarm
    have hold : l.stage.claimed = [] := by
      rcases hstage with hstage | hstage <;> rw [hstage] <;> rfl
    obtain rfl := Option.some.inj hon
    refine ⟨fun hin => (AList.mem_erase.mp hin).1 rfl, Finset.notMem_erase p _, ?_⟩
    intro l' a hl' ha
    obtain rfl := Option.some.inj (hl.symm.trans hl')
    apply List.eq_nil_iff_forall_not_mem.mpr
    intro offset hoffset
    obtain ⟨hown, hissued⟩ := PeerTables.mem_reservations.mp hoffset
    obtain ⟨hforgotten, hbefore⟩ := Swarm.issued_onLeave ha hleave hissued
    have hcovers := h.covered l a hl ha offset (PeerTables.mem_reservations.mpr ⟨hown, hbefore⟩)
    exact hforgotten (hcovers.issuedByUs hold)
  · exact absurd ((Option.all_eq_true _ _).mp (hguard rfl) l hl) Bool.false_ne_true

end Invariant

section Registration

variable {env : SwarmEnv} {s s' : PeerTables} {swarm : Swarm} {p q : ℕ}

/-- The peer is in both tables. -/
def PeerTables.Registered (s : PeerTables) (p : ℕ) : Prop :=
  p ∈ s.peerChokeStats ∧ p ∈ s.peerMsgTxs

/-- A loop takes no other peer out of the tables, and its own when it leaves. -/
theorem registered_onLoop {e : LoopEvent} (h : s.Registered p) (hne : p = q → e ≠ .leave)
    (hstep : s.onLoop swarm q e = some s') : s'.Registered p := by
  cases e with
  | top choke =>
    obtain ⟨_, heq⟩ := Option.ite_none_right_eq_some.mp hstep
    obtain rfl := Option.some.inj heq
    exact h
  | message m =>
    obtain rfl := Option.some.inj hstep
    exact ⟨HashMap.mem_mapValues.mpr h.1, h.2⟩
  | leave =>
    obtain rfl := Option.some.inj hstep
    have hother : p ≠ q := fun heq => hne heq rfl
    exact ⟨AList.mem_erase.mpr ⟨hother, h.1⟩, Finset.mem_erase.mpr ⟨hother, h.2⟩⟩
  | _ =>
    obtain rfl := Option.some.inj hstep
    exact h

/-- A peer is in both tables as long as its loop runs. -/
theorem registered_step {e : TablesEvent}
    (h : (s.swarm.loops p).isSome → s.Registered p) (hstep : s.step env e = some s')
    (hp : (s'.swarm.loops p).isSome) : s'.Registered p := by
  cases PeerTables.step_cases hstep with
  | choke => exact ⟨HashMap.mem_mapValues.mpr (h hp).1, (h hp).2⟩
  | manager => exact h hp
  | @connect q =>
    by_cases heq : p = q
    · exact ⟨(AList.mem_insert _).mpr (.inl heq), Finset.mem_insert.mpr (.inl heq)⟩
    · replace hp : ((s.swarm.setLoop q .new).loops p).isSome := hp
      rw [Swarm.loops_setLoop, if_neg heq] at hp
      obtain ⟨hstats, htxs⟩ := h hp
      exact ⟨(AList.mem_insert _).mpr (.inr hstats), Finset.mem_insert.mpr (.inr htxs)⟩
  | @loop q e l _ hl hswarm hon =>
    by_cases heq : p = q
    · subst heq
      refine registered_onLoop (h (by rw [hl]; rfl)) ?_ hon
      rintro - rfl
      obtain ⟨_, hleave⟩ := Option.ite_none_right_eq_some.mp hswarm
      rw [Swarm.loops_onLeave hleave] at hp
      simp at hp
    · rw [(Swarm.onLoop_turn hswarm).loops_of_ne heq] at hp
      exact registered_onLoop (h hp) (fun h => absurd h heq) hon
  | verify hheap hloops => exact h (hloops ▸ hp)

/-- A message that cannot be sent leaves the peer in both tables. -/
theorem not_cleaned_of_fail (h : (s.swarm.loops p).isSome → s.Registered p)
    (hstep : s.step env (.swarm (.loop p .fail)) = some s') :
    ¬ Cleaned p s (.swarm (.loop p .fail)) s' := by
  intro hclean
  obtain ⟨swarm, hswarm, hon⟩ := Option.bind_eq_some_iff.mp hstep
  obtain ⟨l, hl, _⟩ := Option.bind_eq_some_iff.mp hswarm
  obtain rfl := Option.some.inj hon
  exact (hclean (.inr rfl)).1 (h (by rw [hl]; rfl)).1

/-- In a run that cleans up throughout, every message to the peer is sent. -/
theorem sent_of_along {pm : PieceManager} {tr : List (TablesEvent × PeerTables)}
    (h : (s.swarm.loops p).isSome → s.Registered p) (hrun : System.Trace (peerTables env pm) s tr)
    (hclean : System.Along (Cleaned p) s tr) : ∀ x ∈ tr, x.1 ≠ .swarm (.loop p .fail) := by
  induction hrun with
  | nil => simp
  | cons hstep _ ih =>
    intro x hx
    rcases List.mem_cons.mp hx with rfl | hx
    · rintro rfl
      exact not_cleaned_of_fail h hstep hclean.1
    · exact ih (registered_step h hstep) hclean.2 x hx

end Registration

/-- In every run in which, once a peer is registered, no message to it fails to be sent, no block
of another piece comes under the offset of a block that is reserved for it on its current
collector, and its loop takes up no collector again on which blocks are reserved for it,
`handle_peer` leaves the peer in neither table and nothing reserved on its current collector. A
message that fails to be sent always leaves the peer in both. -/
theorem cleaned_of_run {env : SwarmEnv} {pm : PieceManager} {p : ℕ}
    {tr : List (TablesEvent × PeerTables)}
    (hrun : System.Trace (peerTables env pm) (.start pm) tr) :
    (System.Guarded (Remembers p) (.start pm) tr → System.Along (Cleaned p) (.start pm) tr) ∧
      (System.Along (Cleaned p) (.start pm) tr → ∀ x ∈ tr, x.1 ≠ .swarm (.loop p .fail)) := by
  constructor
  · intro hguard
    refine System.along_of_guarded (J := TablesInv p) ?_ (tablesInv_start pm) hrun hguard
    intro s e s' h hstep hremembers
    exact ⟨cleaned_of_inv h hremembers hstep, h.step hremembers hstep⟩
  · apply sent_of_along ?_ hrun
    intro hp
    simp [PeerTables.start, Swarm.start] at hp

/-- The only block is reserved for a peer. -/
def reservedRun : List SwarmEvent := greeting 0 ++ [.loop 0 (.claim 0 [(0, 1)])]

/-- The request cannot be sent. -/
def unsentRun : List SwarmEvent := reservedRun ++ [.loop 0 .fail]

/-- One of two peers that share a piece goes away. -/
def sharedLeft : List SwarmEvent := sharedAsked ++ [.loop 0 .leave]

/-- Its block is released, and the block of the other peer stays reserved. -/
theorem cleaned_sharedLeft :
    ∃ tr, tr.map Prod.fst = sharedLeft.map .swarm ∧
      System.Trace (peerTables oneByteEnv twoPieces) (.start twoPieces) tr ∧
      (∃ x ∈ tr, x.2.reservations 0 0 = [0] ∧ x.2.reservations 1 0 = [16384]) ∧
      (∃ x ∈ tr, x.2.reservations 0 0 = [] ∧ x.2.reservations 1 0 = [16384] ∧
        0 ∉ x.2.peerMsgTxs ∧ 1 ∈ x.2.peerMsgTxs) ∧
      System.Along (Cleaned 0) (.start twoPieces) tr := by
  have hany : (System.trace (PeerTables.step oneByteEnv) (.start twoPieces)
      (sharedLeft.map .swarm)).any (fun tr =>
        decide ((∃ x ∈ tr, x.2.reservations 0 0 = [0] ∧ x.2.reservations 1 0 = [16384]) ∧
          (∃ x ∈ tr, x.2.reservations 0 0 = [] ∧ x.2.reservations 1 0 = [16384] ∧
            0 ∉ x.2.peerMsgTxs ∧ 1 ∈ x.2.peerMsgTxs) ∧
          System.Guarded (Remembers 0) (.start twoPieces) tr)) = true := by
    decide +kernel
  obtain ⟨tr, htr, hcheck⟩ := (Option.any_eq_true _ _).mp hany
  obtain ⟨hreserved, hreleased, hguard⟩ := of_decide_eq_true hcheck
  have hrun : System.Trace (peerTables oneByteEnv twoPieces) (.start twoPieces) tr :=
    System.trace_eq_some (fun _ _ _ h => h) htr
  exact ⟨tr, System.trace_events htr, hrun, hreserved, hreleased, (cleaned_of_run hrun).1 hguard⟩

/-- A request that cannot be sent leaves the peer in both tables and its block reserved. -/
theorem unsent_request_leaves_peer :
    ∃ tr s, System.Trace (peerTables oneByteEnv oneByte) (.start oneByte) tr ∧
      tr.getLast? = some (.swarm (.loop 0 .fail), s) ∧
      s.peerChokeStats.containsKey 0 = true ∧ 0 ∈ s.peerMsgTxs ∧ s.reservations 0 0 = [0] ∧
      ¬ System.Along (Cleaned 0) (.start oneByte) tr := by
  have hany : (System.trace (PeerTables.step oneByteEnv) (.start oneByte)
      (unsentRun.map .swarm)).any (fun tr =>
        tr.getLast?.any fun x => decide (x.2.peerChokeStats.containsKey 0 = true ∧
          0 ∈ x.2.peerMsgTxs ∧ x.2.reservations 0 0 = [0])) = true := by
    decide +kernel
  obtain ⟨tr, htr, hlast⟩ := (Option.any_eq_true _ _).mp hany
  obtain ⟨⟨e, s⟩, hx, hcheck⟩ := (Option.any_eq_true _ _).mp hlast
  obtain ⟨hstats, htxs, hreserved⟩ := of_decide_eq_true hcheck
  have hrun : System.Trace (peerTables oneByteEnv oneByte) (.start oneByte) tr :=
    System.trace_eq_some (fun _ _ _ h => h) htr
  have hevent : (tr.map Prod.fst).getLast? = some e := by
    rw [List.getLast?_map, hx]
    rfl
  rw [System.trace_events htr] at hevent
  obtain rfl : TablesEvent.swarm (.loop 0 .fail) = e := Option.some.inj hevent
  refine ⟨tr, s, hrun, hx, hstats, htxs, hreserved, ?_⟩
  intro hclean
  refine sent_of_along ?_ hrun hclean _ (List.mem_of_getLast? hx) rfl
  intro hp
  simp [PeerTables.start, Swarm.start] at hp

end Retorrent
