import Retorrent.Network.Metadata
import Retorrent.Systems.Transition

/-!
# The DHT loop of a session

`start` reads the private flag before it spawns `dht_loop`, and the loop reads it again at the
top of each round. A round then waits for the next peer of the DHT and for room in the channel,
and the metadata can be finalized meanwhile.
-/

namespace Retorrent

open Rust Systems

/-- Where `dht_loop` is. -/
inductive DhtLoop where
  | idle
  | top
  | running
  | checked
  | asleep
  | waiting
  | sending (peer : SocketAddrV4)
  | done
  deriving DecidableEq

/-- The round has read the private flag and goes on to a peer. -/
def DhtLoop.pastCheck : DhtLoop → Bool
  | checked | waiting | sending _ => true
  | idle | top | running | asleep | done => false

/-- A session with its DHT loop. `reading` is the flag that `start` has read and not yet acted
on, `channel` the channel of peer events, and `sent` records what `dht_loop` has sent on it. -/
structure DhtSession where
  session : TorrentSession
  reading : Option Bool
  loop : DhtLoop
  cancelled : Bool
  channel : List (List SocketAddrV4)
  sent : List SocketAddrV4

inductive DhtSessionEvent where
  | start (dht : Bool)
  | spawn
  | finalize (io : Res Unit) (assembled : Bytes)
  | setPaused (paused : Bool)
  | cancel
  | advance
  | peer (addr : SocketAddr)
  | wake
  | stop
  | offer (peers : List SocketAddrV4)
  | recv

namespace DhtSession

/-- The channel has room for another event. -/
def hasRoom (s : DhtSession) : Bool := s.channel.length < 100

/-- The part of a round that needs nothing from outside. -/
def advance (s : DhtSession) : Option DhtSession :=
  match s.loop with
  | .top => some { s with loop := if s.cancelled then .done else .running }
  | .running => some { s with loop := if s.session.metaInfo.isPrivate then .done else .checked }
  | .checked => some { s with loop := if s.session.paused then .asleep else .waiting }
  | .sending peer =>
    if s.hasRoom then
      some { s with loop := .top, channel := s.channel ++ [[peer]], sent := s.sent ++ [peer] }
    else none
  | .idle | .asleep | .waiting | .done => none

/-- The DHT hands a peer to a round that waits for one. -/
def next (s : DhtSession) (addr : SocketAddr) : Option DhtSession :=
  if s.loop = .waiting then
    some { s with loop := match addr with
      | .v4 peer => .sending peer
      | .v6 _ => .top }
  else none

/-- A step of `start`, of `dht_loop`, of the receiver or of another task. Of
`finalize_metadata` the loop sees only the write of the metadata, so that is one step. -/
def step (sha1 : List UInt8 → Hash) (b : Build) (s : DhtSession) :
    DhtSessionEvent → Option DhtSession
  | .start dht =>
    if s.session.started then none
    else some { s with
      session := { s.session with started := true }
      reading := if dht then some s.session.metaInfo.isPrivate else none }
  | .spawn => s.reading.map fun isPrivate =>
    { s with reading := none, loop := if isPrivate then s.loop else .top }
  | .finalize io assembled =>
    some { s with session := (finalizeMetadata sha1 b io s.session assembled).1 }
  | .setPaused paused => some { s with session := { s.session with paused := paused } }
  | .cancel => some { s with cancelled := true }
  | .advance => s.advance
  | .peer addr => s.next addr
  | .wake => if s.loop = .asleep then some { s with loop := .top } else none
  | .stop =>
    -- both `select!`s watch the token, the sending does not
    if s.cancelled ∧ (s.loop = .asleep ∨ s.loop = .waiting) then some { s with loop := .done }
    else none
  | .offer peers => if s.hasRoom then some { s with channel := s.channel ++ [peers] } else none
  | .recv => if s.channel = [] then none else some { s with channel := s.channel.tail }

/-- A session that has not been started. -/
def new (session : TorrentSession) : DhtSession where
  session := { session with started := false }
  reading := none
  loop := .idle
  cancelled := false
  channel := []
  sent := []

/-- A step from a private session sends nothing that comes from the DHT. -/
def Silent (s : DhtSession) (_ : DhtSessionEvent) (s' : DhtSession) : Prop :=
  s.session.metaInfo.isPrivate = true → s'.sent = s.sent

instance (s : DhtSession) (e : DhtSessionEvent) (s' : DhtSession) : Decidable (s.Silent e s') :=
  inferInstanceAs (Decidable (_ → _))

end DhtSession

/-- Metadata that turns out private is not written while a round is past its check. -/
def DhtSessionEvent.Timely (sha1 : List UInt8 → Hash) (b : Build) (s : DhtSession) :
    DhtSessionEvent → Prop
  | .finalize io assembled =>
    (finalizeMetadata sha1 b io s.session assembled).1.metaInfo.isPrivate = true →
      s.loop.pastCheck = false
  | _ => True

instance (sha1 : List UInt8 → Hash) (b : Build) (s : DhtSession) :
    ∀ e : DhtSessionEvent, Decidable (e.Timely sha1 b s)
  | .finalize io assembled => inferInstanceAs (Decidable
      ((finalizeMetadata sha1 b io s.session assembled).1.metaInfo.isPrivate = true →
        s.loop.pastCheck = false))
  | .start _ | .spawn | .setPaused _ | .cancel | .advance | .peer _ | .wake | .stop | .offer _
  | .recv => isTrue trivial

/-- The runs of sessions, from their creation on. -/
def dhtSessions (sha1 : List UInt8 → Hash) (b : Build) : System DhtSession DhtSessionEvent where
  init s := ∃ session, s = .new session
  step s e s' := s.step sha1 b e = some s'

namespace DhtSession

variable {sha1 : List UInt8 → Hash} {b : Build} {s s' : DhtSession} {e : DhtSessionEvent}

/-- A round past its check does not meet a private session. -/
def Inv (s : DhtSession) : Prop :=
  s.session.metaInfo.isPrivate = true → s.loop.pastCheck = false

theorem inv_new (session : TorrentSession) : (new session).Inv := fun _ => rfl

theorem advance_spec (hinv : s.Inv) (h : s.advance = some s') :
    s'.Inv ∧ s.Silent .advance s' := by
  rw [advance] at h
  cases hloop : s.loop with
  | top =>
    simp only [hloop, Option.some.injEq] at h
    subst h
    refine ⟨fun _ => ?_, fun _ => rfl⟩
    cases s.cancelled <;> rfl
  | running =>
    simp only [hloop, Option.some.injEq] at h
    subst h
    exact ⟨fun hprivate => by simp only [if_pos hprivate]; rfl, fun _ => rfl⟩
  | checked =>
    simp only [hloop, Option.some.injEq] at h
    subst h
    refine ⟨fun hprivate => ?_, fun _ => rfl⟩
    -- a private torrent is not past the check
    have hbefore := hinv hprivate
    rw [hloop] at hbefore
    exact absurd hbefore (by decide)
  | sending peer =>
    simp only [hloop] at h
    obtain ⟨_, h⟩ := Option.ite_none_right_eq_some.mp h
    obtain rfl := Option.some.inj h
    refine ⟨fun _ => rfl, fun hprivate => ?_⟩
    have hbefore := hinv hprivate
    rw [hloop] at hbefore
    exact absurd hbefore.symm Bool.false_ne_true
  | idle | asleep | waiting | done =>
    simp only [hloop] at h
    simp at h

/-- What a timely step keeps. -/
theorem step_spec (hinv : s.Inv) (htimely : e.Timely sha1 b s) (h : s.step sha1 b e = some s') :
    s'.Inv ∧ s.Silent e s' := by
  cases e with
  | start dht =>
    obtain ⟨_, h⟩ := Option.ite_none_left_eq_some.mp h
    obtain rfl := Option.some.inj h
    exact ⟨hinv, fun _ => rfl⟩
  | spawn =>
    obtain ⟨isPrivate, _, rfl⟩ := Option.map_eq_some_iff.mp h
    refine ⟨fun hprivate => ?_, fun _ => rfl⟩
    -- the loop that is spawned is in front of its first check
    cases isPrivate with
    | true => exact hinv hprivate
    | false => rfl
  | finalize io assembled =>
    obtain rfl := Option.some.inj h
    exact ⟨htimely, fun _ => rfl⟩
  | setPaused paused =>
    obtain rfl := Option.some.inj h
    exact ⟨hinv, fun _ => rfl⟩
  | cancel =>
    obtain rfl := Option.some.inj h
    exact ⟨hinv, fun _ => rfl⟩
  | advance => exact advance_spec hinv h
  | peer addr =>
    obtain ⟨hloop, h⟩ := Option.ite_none_right_eq_some.mp h
    obtain rfl := Option.some.inj h
    refine ⟨fun hprivate => ?_, fun _ => rfl⟩
    have hbefore := hinv hprivate
    rw [hloop] at hbefore
    exact absurd hbefore.symm Bool.false_ne_true
  | wake =>
    obtain ⟨_, h⟩ := Option.ite_none_right_eq_some.mp h
    obtain rfl := Option.some.inj h
    exact ⟨fun _ => rfl, fun _ => rfl⟩
  | stop =>
    obtain ⟨_, h⟩ := Option.ite_none_right_eq_some.mp h
    obtain rfl := Option.some.inj h
    exact ⟨fun _ => rfl, fun _ => rfl⟩
  | offer peers =>
    obtain ⟨_, h⟩ := Option.ite_none_right_eq_some.mp h
    obtain rfl := Option.some.inj h
    exact ⟨hinv, fun _ => rfl⟩
  | recv =>
    obtain ⟨_, h⟩ := Option.ite_none_left_eq_some.mp h
    obtain rfl := Option.some.inj h
    exact ⟨hinv, fun _ => rfl⟩

theorem fails_of_room {peer : SocketAddrV4} (hprivate : s.session.metaInfo.isPrivate = true)
    (hloop : s.loop = .sending peer) (hroom : s.hasRoom = true) :
    (dhtSessions sha1 b).Fails Silent s := by
  have hsend : s.advance = some { s with
      loop := .top, channel := s.channel ++ [[peer]], sent := s.sent ++ [peer] } := by
    rw [advance, hloop]
    exact if_pos hroom
  refine .last (e := .advance) hsend ?_
  intro hsilent
  have hsame := hsilent hprivate
  simp at hsame

/-- What a round sends to a private session, once the receiver has made room. -/
theorem fails_of_sending {peer : SocketAddrV4} (hprivate : s.session.metaInfo.isPrivate = true)
    (hloop : s.loop = .sending peer) : (dhtSessions sha1 b).Fails Silent s := by
  -- the receiver takes one event after the other until there is room
  induction hlen : s.channel.length generalizing s with
  | zero =>
    exact fails_of_room hprivate hloop (by rw [hasRoom, hlen]; decide)
  | succ n ih =>
    by_cases hroom : s.hasRoom = true
    · exact fails_of_room hprivate hloop hroom
    · have hne : s.channel ≠ [] := by
        rintro hnil
        rw [hnil] at hlen
        simp at hlen
      have hrest : (dhtSessions sha1 b).Fails Silent { s with channel := s.channel.tail } :=
        ih hprivate hloop (by rw [List.length_tail, hlen]; rfl)
      exact .cons (e := .recv) (if_neg hne) hrest

theorem fails_of_waiting (hprivate : s.session.metaInfo.isPrivate = true)
    (hloop : s.loop = .waiting) : (dhtSessions sha1 b).Fails Silent s := by
  have hrest : (dhtSessions sha1 b).Fails Silent { s with loop := .sending ⟨1, 6881⟩ } :=
    fails_of_sending hprivate rfl
  exact .cons (e := .peer (.v4 ⟨1, 6881⟩)) (if_pos hloop) hrest

/-- From a private session whose round is past its check, the DHT's next peer gets through. -/
theorem fails_of_pastCheck (hprivate : s.session.metaInfo.isPrivate = true)
    (hpast : s.loop.pastCheck = true) : (dhtSessions sha1 b).Fails Silent s := by
  cases hloop : s.loop with
  | sending peer => exact fails_of_sending hprivate hloop
  | waiting => exact fails_of_waiting hprivate hloop
  | checked =>
    have hrest : (dhtSessions sha1 b).Fails Silent
        { s with session := { s.session with paused := false }, loop := .waiting } :=
      fails_of_waiting hprivate rfl
    have hwait : advance { s with session := { s.session with paused := false } } =
        some { s with session := { s.session with paused := false }, loop := .waiting } := by
      rw [advance, hloop]
      rfl
    exact .cons (e := .setPaused false) rfl (.cons (e := .advance) hwait hrest)
  | idle | top | running | asleep | done =>
    rw [hloop] at hpast
    exact absurd hpast Bool.false_ne_true

end DhtSession

/-- Throughout a run in which private metadata is only written outside the rounds, nothing that
comes from the DHT is sent to a private session. Any step that writes it inside a round may be
followed by steps that do so. -/
theorem dht_silent (sha1 : List UInt8 → Hash) (b : Build) :
    (∀ session tr, System.Trace (dhtSessions sha1 b) (.new session) tr →
      System.Guarded (fun s e => e.Timely sha1 b s) (.new session) tr →
      System.Along DhtSession.Silent (.new session) tr) ∧
    ∀ s e s', (dhtSessions sha1 b).step s e s' → ¬ e.Timely sha1 b s →
      (dhtSessions sha1 b).Fails DhtSession.Silent s' := by
  constructor
  · intro session tr hrun hguard
    refine System.along_of_guarded ?_ (DhtSession.inv_new session) hrun hguard
    intro s e s' hinv hstep htimely
    exact (DhtSession.step_spec hinv htimely hstep).symm
  · intro s e s' hstep hlate
    cases e with
    | finalize io assembled =>
      obtain rfl := Option.some.inj hstep
      obtain ⟨hprivate, hpast⟩ := Classical.not_imp.mp hlate
      exact DhtSession.fails_of_pastCheck hprivate (Bool.eq_true_of_not_eq_false hpast)
    | start _ | spawn | setPaused _ | cancel | advance | peer _ | wake | stop | offer _ | recv =>
      exact absurd trivial hlate

/-- A magnet link of a private torrent. -/
def privateMagnet : DhtSession := .new (.ofMagnet sampleHash (.ascii "x") [] [] [])

/-- Its info dictionary. -/
def privateInfo : Bytes :=
  ⟨Str.asciiBytes ("d6:lengthi1e4:name1:x12:piece lengthi1e6:pieces20:aaaaaaaaaaaaaaaaaaaa" ++
    "7:privatei1ee"), by decide +kernel⟩

/-- The loop finds the flag of metadata that came before its round. -/
theorem dht_silent_privateMagnet :
    ∃ tr, System.Trace (dhtSessions (fun _ => sampleHash) .release) privateMagnet tr ∧
      (∃ x ∈ tr, x.2.session.metaInfo.isPrivate = true) ∧
      System.Along DhtSession.Silent privateMagnet tr := by
  have hany : (System.trace (DhtSession.step (fun _ => sampleHash) .release) privateMagnet
      [.start true, .spawn, .finalize (.ok ()) privateInfo, .advance, .advance]).any (fun tr =>
        decide ((∃ x ∈ tr, x.2.session.metaInfo.isPrivate = true) ∧
          System.Guarded (fun s e => e.Timely (fun _ => sampleHash) .release s)
            privateMagnet tr)) = true := by
    decide +kernel
  obtain ⟨tr, htr, hcheck⟩ := (Option.any_eq_true _ _).mp hany
  obtain ⟨hprivate, hguard⟩ := of_decide_eq_true hcheck
  have hrun : System.Trace (dhtSessions (fun _ => sampleHash) .release) privateMagnet tr :=
    System.trace_eq_some (fun _ _ _ h => h) htr
  exact ⟨tr, hrun, hprivate, (dht_silent _ _).1 _ tr hrun hguard⟩

/-- A peer of the DHT gets through when the metadata comes while the round waits for it. -/
theorem dht_peer_sent_private :
    ∃ tr, System.Trace (dhtSessions (fun _ => sampleHash) .release) privateMagnet tr ∧
      ¬ System.Along DhtSession.Silent privateMagnet tr := by
  have hany : (System.trace (DhtSession.step (fun _ => sampleHash) .release) privateMagnet
      [.start true, .spawn, .advance, .advance, .advance, .finalize (.ok ()) privateInfo,
        .peer (.v4 ⟨1, 6881⟩), .advance]).any (fun tr =>
          decide (¬ System.Along DhtSession.Silent privateMagnet tr)) = true := by
    decide +kernel
  obtain ⟨tr, htr, hcheck⟩ := (Option.any_eq_true _ _).mp hany
  have hrun : System.Trace (dhtSessions (fun _ => sampleHash) .release) privateMagnet tr :=
    System.trace_eq_some (fun _ _ _ h => h) htr
  exact ⟨tr, hrun, of_decide_eq_true hcheck⟩

end Retorrent
