import Retorrent.Rustlib.HashMap
import Retorrent.Systems.Transition
import Retorrent.Types

/-!
# Registration of peer tasks

Every `handle_peer` task puts the sender of its Have channel into `peer_msg_txs`
under the address of its peer and removes that address when it leaves. Two tasks
may have the same address.
-/

namespace Retorrent

open Rust Systems

/-- Where a `handle_peer` task is: before its registration, in its loop, between
the loop and the cleanup, or gone. -/
inductive PeerPhase where
  | setup
  | running
  | leaving
  | done
  deriving DecidableEq

structure PeerTask where
  addr : SocketAddrV4
  phase : PeerPhase
  deriving DecidableEq

/-- The tasks of a session. A sender in `peerMsgTxs` is named by the task that holds
the receiver of its channel. -/
structure Peers where
  tasks : ℕ → Option PeerTask
  peerMsgTxs : HashMap SocketAddrV4 ℕ

/-- A session without peers. -/
def Peers.new : Peers where
  tasks _ := none
  peerMsgTxs := ∅

inductive PeersEvent where
  | spawn (t : ℕ) (addr : SocketAddrV4)
  | register (t : ℕ)
  | closed (t : ℕ)
  | leave (t : ℕ)
  | fail (t : ℕ)
  | cleanup (t : ℕ)

/-- The task is in its loop. -/
def Peers.Running (s : Peers) (t : ℕ) (addr : SocketAddrV4) : Prop :=
  s.tasks t = some ⟨addr, .running⟩

/-- A task goes on to a phase. -/
def Peers.goTo (s : Peers) (t : ℕ) (addr : SocketAddrV4) (phase : PeerPhase) : Peers :=
  { s with tasks := Function.update s.tasks t (some ⟨addr, phase⟩) }

/-- The registration of a task. A sender that was there before is dropped. -/
def Peers.register (s : Peers) (t : ℕ) (addr : SocketAddrV4) : Peers :=
  { s.goTo t addr .running with peerMsgTxs := s.peerMsgTxs.insert addr t }

/-- The cleanup of a task that has left its loop. -/
def Peers.cleanup (s : Peers) (t : ℕ) (addr : SocketAddrV4) : Peers :=
  { s.goTo t addr .done with peerMsgTxs := s.peerMsgTxs.erase addr }

/-- One step of one task. Any address may be dialled at any time. -/
inductive PeersStep : Peers → PeersEvent → Peers → Prop where
  | spawn {s : Peers} {t : ℕ} {addr : SocketAddrV4} : s.tasks t = none →
      PeersStep s (.spawn t addr) (s.goTo t addr .setup)
  | register {s : Peers} {t : ℕ} {addr : SocketAddrV4} : s.tasks t = some ⟨addr, .setup⟩ →
      PeersStep s (.register t) (s.register t addr)
  -- `have_rx.recv()` gives `None`: no sender of the channel is left
  | closed {s : Peers} {t : ℕ} {addr : SocketAddrV4} : s.Running t addr →
      (∀ a, s.peerMsgTxs.lookup a ≠ some t) → PeersStep s (.closed t) (s.goTo t addr .leaving)
  | leave {s : Peers} {t : ℕ} {addr : SocketAddrV4} : s.Running t addr →
      PeersStep s (.leave t) (s.goTo t addr .leaving)
  -- `?` on a failed send skips the cleanup
  | fail {s : Peers} {t : ℕ} {addr : SocketAddrV4} {phase : PeerPhase} :
      s.tasks t = some ⟨addr, phase⟩ → phase = .setup ∨ phase = .running →
      PeersStep s (.fail t) (s.goTo t addr .done)
  | cleanup {s : Peers} {t : ℕ} {addr : SocketAddrV4} : s.tasks t = some ⟨addr, .leaving⟩ →
      PeersStep s (.cleanup t) (s.cleanup t addr)

def peers : System Peers PeersEvent where
  init s := s = .new
  step := PeersStep

/-- What a session promises about its running tasks: each has its own sender
registered, so that none finds its channel closed. -/
structure OwnRegistration (s : Peers) : Prop where
  registered : ∀ t addr, s.Running t addr → s.peerMsgTxs.lookup addr = some t
  stays : ∀ t s', ¬ PeersStep s (.closed t) s'

/-- No other running task has the address of a task. -/
def Alone (s : Peers) (t : ℕ) : Prop :=
  ∀ p, s.tasks t = some p → ∀ u, u ≠ t → ¬ s.Running u p.addr

/-- A task registers and cleans up only while no other running task has its
address. -/
def Apart (s : Peers) : PeersEvent → Prop
  | .register t | .cleanup t => Alone s t
  | .spawn .. | .closed _ | .leave _ | .fail _ => True

/-- The task that an event takes out of its loop or out of the session. -/
def PeersEvent.exitOf : PeersEvent → Option ℕ
  | .closed t | .leave t | .fail t | .cleanup t => some t
  | .spawn .. | .register _ => none

variable {s s' : Peers} {e : PeersEvent}

theorem Peers.running_goTo {t u : ℕ} {addr a : SocketAddrV4} {phase : PeerPhase} :
    (s.goTo t addr phase).Running u a ↔
      u = t ∧ a = addr ∧ phase = .running ∨ u ≠ t ∧ s.Running u a := by
  unfold Running goTo
  dsimp only
  by_cases h : u = t
  · rw [h, Function.update_self]
    simp [eq_comm]
  · rw [Function.update_of_ne h]
    simp [h]

theorem OwnRegistration.of_registered
    (h : ∀ t addr, s.Running t addr → s.peerMsgTxs.lookup addr = some t) : OwnRegistration s := by
  refine ⟨h, ?_⟩
  intro t s' hstep
  cases hstep with
  | closed hrun hclosed => exact hclosed _ (h _ _ hrun)

/-- A task that goes on to another phase without touching the map disturbs no
other task. -/
theorem OwnRegistration.goTo (h : OwnRegistration s) {t : ℕ} {addr : SocketAddrV4}
    {phase : PeerPhase} (hphase : phase ≠ .running) : OwnRegistration (s.goTo t addr phase) := by
  apply OwnRegistration.of_registered
  intro u a hrun
  rcases Peers.running_goTo.mp hrun with ⟨_, _, hrunning⟩ | ⟨_, hu⟩
  · exact absurd hrunning hphase
  · exact h.registered u a hu

theorem ownRegistration_step (h : OwnRegistration s) (hguard : Apart s e)
    (hstep : PeersStep s e s') : OwnRegistration s' := by
  cases hstep with
  | spawn | closed | leave | fail => exact h.goTo (by simp)
  | @register t addr hsetup =>
    apply OwnRegistration.of_registered
    intro u a hrun
    apply (HashMap.lookup_insert_eq s.peerMsgTxs addr a t).trans
    rcases Peers.running_goTo.mp hrun with ⟨rfl, rfl, _⟩ | ⟨hne, hu⟩
    · rw [if_pos rfl]
    · rw [if_neg, h.registered u a hu]
      rintro rfl
      exact hguard _ hsetup u hne hu
  | @cleanup t addr hleaving =>
    apply OwnRegistration.of_registered
    intro u a hrun
    apply (HashMap.lookup_erase_eq s.peerMsgTxs addr a).trans
    rcases Peers.running_goTo.mp hrun with ⟨_, _, hrunning⟩ | ⟨hne, hu⟩
    · simp at hrunning
    · rw [if_neg, h.registered u a hu]
      rintro rfl
      exact hguard _ hleaving u hne hu

/-- The exit of a task leaves the others running. -/
theorem running_of_exit {t u : ℕ} {addr : SocketAddrV4} (hexit : e.exitOf = some t)
    (hne : u ≠ t) (hrun : s.Running u addr) (hstep : PeersStep s e s') : s'.Running u addr := by
  cases hstep with
  | spawn | register => simp [PeersEvent.exitOf] at hexit
  | closed | leave | fail | cleanup =>
    obtain rfl := Option.some.inj hexit
    exact Peers.running_goTo.mpr (.inr ⟨hne, hrun⟩)

/-- Registering or cleaning up beside a running task of the same address takes its
registration away. -/
theorem not_ownRegistration_of_not_apart (hguard : ¬ Apart s e) (hstep : PeersStep s e s') :
    ¬ OwnRegistration s' := by
  intro h
  apply hguard
  cases hstep with
  | spawn | closed | leave | fail => trivial
  | @register t addr hsetup =>
    intro p hp u hne hrun
    obtain rfl := Option.some.inj (hsetup.symm.trans hp)
    have hlookup := h.registered u addr (Peers.running_goTo.mpr (.inr ⟨hne, hrun⟩))
    have hown := (HashMap.lookup_insert_eq s.peerMsgTxs addr addr t).symm.trans hlookup
    rw [if_pos rfl, Option.some.injEq] at hown
    exact hne hown.symm
  | @cleanup t addr hleaving =>
    intro p hp u hne hrun
    obtain rfl := Option.some.inj (hleaving.symm.trans hp)
    have hlookup := h.registered u addr (Peers.running_goTo.mpr (.inr ⟨hne, hrun⟩))
    have hnone := (HashMap.lookup_erase_eq s.peerMsgTxs addr addr).symm.trans hlookup
    rw [if_pos rfl] at hnone
    simp at hnone

/-- In every run in which a task registers and cleans up only while no other running
task has its address, every running task has its own sender registered and keeps it
when other tasks exit. The first step of another kind breaks this. -/
theorem own_registration_of_run {s : Peers} (hs : peers.Reachable Apart s) :
    OwnRegistration s ∧
    (∀ e s' t, e.exitOf = some t → Apart s e → PeersStep s e s' → ∀ u addr, u ≠ t →
      s.Running u addr → s'.Running u addr ∧ s'.peerMsgTxs.lookup addr = some u) ∧
    ∀ e s', ¬ Apart s e → PeersStep s e s' → ¬ OwnRegistration s' := by
  have hinv : peers.Invariant Apart OwnRegistration := by
    refine ⟨?_, fun _ _ _ h hguard hstep => ownRegistration_step h hguard hstep⟩
    rintro s rfl
    exact .of_registered fun t addr hrun => by simp [Peers.Running, Peers.new] at hrun
  have h := hinv.reachable hs
  refine ⟨h, ?_, fun e s' => not_ownRegistration_of_not_apart⟩
  intro e s' t hexit hguard hstep u addr hne hrun
  have hrun' := running_of_exit hexit hne hrun hstep
  exact ⟨hrun', (ownRegistration_step h hguard hstep).registered u addr hrun'⟩

section SameAddress

/-- The address of a peer that is announced twice. -/
def sampleAddr : SocketAddrV4 := ⟨0x0A000001, 6881⟩

/-- The first of two tasks of the address runs. -/
def oneRunning : Peers := (Peers.new.goTo 0 sampleAddr .setup).register 0 sampleAddr

theorem oneRunning_reachable : peers.Reachable Apart oneRunning := by
  have hinit : peers.Reachable Apart .new := .init rfl
  have hspawn : PeersStep .new (.spawn 0 sampleAddr) (Peers.new.goTo 0 sampleAddr .setup) :=
    .spawn rfl
  have hregister : PeersStep (Peers.new.goTo 0 sampleAddr .setup) (.register 0) oneRunning :=
    .register rfl
  have halone : Apart (Peers.new.goTo 0 sampleAddr .setup) (.register 0) := by
    intro p _ u hne hrun
    rcases Peers.running_goTo.mp hrun with ⟨_, _, hrunning⟩ | ⟨_, hu⟩
    · simp at hrunning
    · simp [Peers.Running, Peers.new] at hu
  exact (hinit.step (e := PeersEvent.spawn 0 sampleAddr) trivial hspawn).step halone hregister

theorem own_registration_oneRunning :
    oneRunning.Running 0 sampleAddr ∧ OwnRegistration oneRunning :=
  ⟨rfl, (own_registration_of_run oneRunning_reachable).1⟩

/-- The second task registers, so that the first finds its channel closed and leaves. -/
def twoRunning : Peers := (oneRunning.goTo 1 sampleAddr .setup).register 1 sampleAddr

/-- The cleanup of the first task takes the registration of the second, which is
still running. -/
theorem registration_lost_sampleAddr :
    ∃ s s', peers.Reachable System.unguarded s ∧ PeersStep s (.cleanup 0) s' ∧
      s.Running 1 sampleAddr ∧ s.peerMsgTxs.lookup sampleAddr = some 1 ∧
      s'.Running 1 sampleAddr ∧ s'.peerMsgTxs.lookup sampleAddr = none ∧
      ¬ OwnRegistration s' := by
  have hspawn : PeersStep oneRunning (.spawn 1 sampleAddr) (oneRunning.goTo 1 sampleAddr .setup) :=
    .spawn rfl
  have hregister : PeersStep (oneRunning.goTo 1 sampleAddr .setup) (.register 1) twoRunning :=
    .register rfl
  have hclosed : PeersStep twoRunning (.closed 0) (twoRunning.goTo 0 sampleAddr .leaving) := by
    refine .closed rfl ?_
    intro a ha
    replace ha := (HashMap.lookup_insert_eq oneRunning.peerMsgTxs sampleAddr a 1).symm.trans ha
    by_cases haddr : a = sampleAddr
    · simp [haddr] at ha
    · have hnone := HashMap.lookup_insert_eq Peers.new.peerMsgTxs sampleAddr a 0
      rw [if_neg haddr] at ha hnone
      rw [show AList.lookup a oneRunning.peerMsgTxs = none from hnone] at ha
      simp at ha
  have hcleanup : PeersStep (twoRunning.goTo 0 sampleAddr .leaving) (.cleanup 0)
      ((twoRunning.goTo 0 sampleAddr .leaving).cleanup 0 sampleAddr) := .cleanup rfl
  have hrun : peers.Run oneRunning [.spawn 1 sampleAddr, .register 1, .closed 0]
      (twoRunning.goTo 0 sampleAddr .leaving) :=
    .cons hspawn (.cons hregister (.cons hclosed .nil))
  have hreach := hrun.reachable (oneRunning_reachable.mono fun _ _ _ => trivial)
  refine ⟨_, _, hreach, hcleanup, rfl, rfl, rfl, rfl, ?_⟩
  intro h
  have hlookup := h.registered 1 sampleAddr rfl
  exact absurd hlookup (by decide)

end SameAddress

end Retorrent
