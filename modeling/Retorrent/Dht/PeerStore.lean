import Retorrent.Dht.Node
import Retorrent.Systems.Transition

/-!
# The peer store

`PeerStore`: the peers that were announced to a DHT node, behind tokens that the node has handed
out. The tokens are lost when the store is dumped and restored.
-/

namespace Retorrent.Dht

open Rust Systems

/-- A `[u8; 4]`. -/
abbrev Token := { bytes : List UInt8 // bytes.length = 4 }

structure StoredToken where
  token : Token
  nodeId : InfoHash
  addr : SocketAddr
  deriving DecidableEq

/-- The time is in seconds. -/
structure StoredPeer where
  addr : SocketAddr
  time : ℤ
  deriving DecidableEq

structure PeerStore where
  selfId : InfoHash
  maxRememberedTokens : ℕ
  maxRememberedPeers : ℕ
  maxDistance : InfoHash
  tokens : List StoredToken
  peers : HashMap InfoHash (List StoredPeer)
  peersLen : UInt32

/-- `SocketAddr::set_port`. -/
def setPort (port : UInt16) : SocketAddr → SocketAddr
  | .v4 addr => .v4 { addr with port := port }
  | .v6 addr => .v6 { addr with port := port }

@[simp] theorem ip_setPort (port : UInt16) (addr : SocketAddr) :
    (setPort port addr).ip = addr.ip := by
  cases addr <;> rfl

/-- The first peer with an address gets a new time. -/
def refresh (addr : SocketAddr) (now : ℤ) : List StoredPeer → Option (List StoredPeer)
  | [] => none
  | p :: rest =>
    if p.addr = addr then some ({ p with time := now } :: rest)
    else (refresh addr now rest).map (p :: ·)

namespace PeerStore

/-- `from_hex("0000ffffffffffffffffffffffffffffffffffff")`. -/
def defaultMaxDistance : InfoHash := ⟨[0, 0] ++ List.replicate 18 0xff, rfl⟩

def new (selfId : InfoHash) : PeerStore where
  selfId := selfId
  maxRememberedTokens := 1000
  maxRememberedPeers := 1000
  maxDistance := defaultMaxDistance
  tokens := []
  peers := ∅
  peersLen := 0

/-- The loop of `new_with_persistence`. `clock` is what `Utc::now` gives for each address. -/
def insertAll (b : Build) (clock : InfoHash → SocketAddr → ℤ) :
    List (InfoHash × List SocketAddr) → HashMap InfoHash (List StoredPeer) × ℕ →
      Res (HashMap InfoHash (List StoredPeer) × ℕ)
  | [], acc => .ok acc
  | (infoHash, addrs) :: rest, (peers, total) => do
    let stored := addrs.map fun addr => ⟨addr, clock infoHash addr⟩
    let total ← b.add 32 total (stored.length % 2 ^ 32)
    insertAll b clock rest (peers.insert infoHash stored, total)

def newWithPersistence (b : Build) (clock : InfoHash → SocketAddr → ℤ) (selfId : InfoHash)
    (peers : List (InfoHash × List SocketAddr)) : Res PeerStore := do
  let (peers, total) ← insertAll b clock peers (∅, 0)
  return { new selfId with peers := peers, peersLen := UInt32.ofNat total }

def collectPersisted (s : PeerStore) : List (InfoHash × List SocketAddr) :=
  s.peers.entries.map fun e => (e.1, e.2.map StoredPeer.addr)

/-- `gen_token_for`, where `token` is what the generator fills in. -/
def genTokenFor (s : PeerStore) (nodeId : InfoHash) (addr : SocketAddr) (token : Token) :
    PeerStore :=
  let tokens := s.tokens ++ [⟨token, nodeId, addr⟩]
  { s with tokens := if s.maxRememberedTokens < tokens.length then tokens.tail else tokens }

/-- The end of `store_peer`, where the peer was pushed or inserted. -/
def counted (s : PeerStore) (peers : HashMap InfoHash (List StoredPeer)) : PeerStore :=
  { s with peers := peers, peersLen := s.peersLen + 1 }

def storePeer (s : PeerStore) (id infoHash : InfoHash) (token : List UInt8) (port : UInt16)
    (impliedPort : UInt8) (addr : SocketAddr) (now : ℤ) : PeerStore × Bool :=
  if s.maxDistance.lt (infoHash.distance s.selfId) then (s, false)
  else if !s.tokens.any fun t => t.token.1 = token ∧ t.addr = addr ∧ t.nodeId = id then (s, false)
  else
    let addr := if impliedPort = 0 then setPort port addr else addr
    match s.peers.lookup infoHash with
    | some stored =>
      match refresh addr now stored with
      | some stored => ({ s with peers := s.peers.modify infoHash fun _ => stored }, true)
      | none =>
        if s.maxRememberedPeers ≤ s.peersLen.toNat then (s, false)
        else (s.counted (s.peers.modify infoHash (· ++ [⟨addr, now⟩])), true)
    | none =>
      if s.maxRememberedPeers ≤ s.peersLen.toNat then (s, false)
      else (s.counted (s.peers.insert infoHash [⟨addr, now⟩]), true)

def getPeers (s : PeerStore) (infoHash : InfoHash) : List SocketAddr :=
  ((s.peers.lookup infoHash).getD []).map StoredPeer.addr

/-- The number of peers stored. -/
def totalPeers (s : PeerStore) : ℕ := s.peers.total List.length

end PeerStore

/-- A peer that a call of `store_peer` has added. -/
structure AddedPeer where
  id : InfoHash
  infoHash : InfoHash
  addr : SocketAddr

/-- A store with its history since it was made: the peers it was restored with, the node ids and
addresses that tokens were issued to, and the peers that were added. -/
structure StoreHistory where
  store : PeerStore
  restored : List (InfoHash × List SocketAddr)
  issued : List (InfoHash × SocketAddr)
  added : List AddedPeer

inductive StoreEvent where
  | genTokenFor (nodeId : InfoHash) (addr : SocketAddr) (token : Token)
  | storePeer (id infoHash : InfoHash) (token : List UInt8) (port : UInt16) (impliedPort : UInt8)
    (addr : SocketAddr) (now : ℤ)
  | restore (selfId : InfoHash) (peers : List (InfoHash × List SocketAddr))
    (clock : InfoHash → SocketAddr → ℤ)

namespace StoreHistory

/-- A history that begins. -/
def start (store : PeerStore) (restored : List (InfoHash × List SocketAddr)) : StoreHistory where
  store := store
  restored := restored
  issued := []
  added := []

/-- The peers of a store come out of `collect_persisted` in any order. A call of `store_peer` that
adds a peer is one that counts it. -/
def step (b : Build) (x : StoreHistory) : StoreEvent → Option StoreHistory
  | .genTokenFor nodeId addr token => some { x with
      store := x.store.genTokenFor nodeId addr token
      issued := (nodeId, addr) :: x.issued }
  | .storePeer id infoHash token port impliedPort addr now =>
    let store := (x.store.storePeer id infoHash token port impliedPort addr now).1
    let addr := if impliedPort = 0 then setPort port addr else addr
    some { x with
      store := store
      added := if store.peersLen = x.store.peersLen then x.added
        else ⟨id, infoHash, addr⟩ :: x.added }
  | .restore selfId peers clock =>
    if peers.Perm x.store.collectPersisted then
      match PeerStore.newWithPersistence b clock selfId peers with
      | .ok store => some (.start store peers)
      | _ => none
    else none

end StoreHistory

/-- The calls on a new store, and on the stores restored from it. -/
def storeRuns (b : Build) : System StoreHistory StoreEvent where
  init x := ∃ selfId, x = .start (.new selfId) []
  step x e x' := x.step b e = some x'

/-- What holds of a store at any time. -/
structure StoreSound (x : StoreHistory) : Prop where
  counted : x.store.peersLen.toNat = x.store.totalPeers
  limited : x.store.peersLen.toNat ≤ x.store.maxRememberedPeers
  distinct : ∀ h, (x.store.getPeers h).Nodup
  tokens : x.store.tokens.length ≤ x.store.maxRememberedTokens
  /-- A peer was there when the store was made, or it was added. -/
  origin : ∀ h, ∀ addr ∈ x.store.getPeers h, (∃ e ∈ x.restored, e.1 = h ∧ addr ∈ e.2) ∨
    ∃ p ∈ x.added, p.infoHash = h ∧ p.addr = addr
  /-- A token was issued to the node that announced a peer, at an address with its IP. -/
  added : ∀ p ∈ x.added, (p.infoHash.distance x.store.selfId).le x.store.maxDistance = true ∧
    ∃ addr, (p.id, addr) ∈ x.issued ∧ addr.ip = p.addr.ip

section Refresh

variable {addr : SocketAddr} {now : ℤ} {stored stored' : List StoredPeer}

theorem addrs_refresh (h : refresh addr now stored = some stored') :
    stored'.map StoredPeer.addr = stored.map StoredPeer.addr := by
  induction stored generalizing stored' with
  | nil => simp [refresh] at h
  | cons p rest ih =>
    rw [refresh] at h
    split at h
    · obtain rfl := Option.some.inj h
      rfl
    · obtain ⟨tail, htail, rfl⟩ := Option.map_eq_some_iff.mp h
      rw [List.map_cons, List.map_cons, ih htail]

theorem not_mem_of_refresh (h : refresh addr now stored = none) :
    addr ∉ stored.map StoredPeer.addr := by
  induction stored with
  | nil => simp
  | cons p rest ih =>
    rw [refresh] at h
    split at h
    · simp at h
    · next hne =>
      rw [List.map_cons, List.mem_cons, not_or]
      exact ⟨fun heq => hne heq.symm, ih (Option.map_eq_none_iff.mp h)⟩

end Refresh

namespace PeerStore

variable {s s' : PeerStore} {id infoHash : InfoHash} {addr : SocketAddr}

theorem getPeers_modify (s : PeerStore) (f : List StoredPeer → List StoredPeer)
    (infoHash h : InfoHash) :
    getPeers { s with peers := s.peers.modify infoHash f } h =
      if h = infoHash then ((s.peers.lookup h).elim [] f).map StoredPeer.addr
      else s.getPeers h := by
  by_cases heq : h = infoHash
  · rw [heq, if_pos rfl, getPeers, HashMap.lookup_modify_self]
    cases s.peers.lookup infoHash <;> rfl
  · rw [if_neg heq, getPeers, HashMap.lookup_modify_ne heq, getPeers]

theorem getPeers_insert (s : PeerStore) (stored : List StoredPeer) (infoHash h : InfoHash) :
    getPeers { s with peers := s.peers.insert infoHash stored } h =
      if h = infoHash then stored.map StoredPeer.addr else s.getPeers h := by
  rw [getPeers, HashMap.lookup_insert_eq]
  by_cases heq : h = infoHash
  · rw [if_pos heq, if_pos heq, Option.getD_some]
  · rw [if_neg heq, if_neg heq, getPeers]

/-- What a call leaves as it is. -/
structure SameSettings (s s' : PeerStore) : Prop where
  selfId : s'.selfId = s.selfId
  maxRememberedTokens : s'.maxRememberedTokens = s.maxRememberedTokens
  maxRememberedPeers : s'.maxRememberedPeers = s.maxRememberedPeers
  maxDistance : s'.maxDistance = s.maxDistance

/-- A call that adds no peer. -/
structure KeepsPeers (s s' : PeerStore) : Prop extends SameSettings s s' where
  tokens : s'.tokens = s.tokens
  peers : ∀ h, s'.getPeers h = s.getPeers h
  total : s'.totalPeers = s.totalPeers
  peersLen : s'.peersLen = s.peersLen

/-- A call that adds a peer, and what it has checked before. -/
structure AddsPeer (id infoHash : InfoHash) (addr : SocketAddr) (s s' : PeerStore) : Prop
    extends SameSettings s s' where
  tokens : s'.tokens = s.tokens
  peers : ∀ h, s'.getPeers h =
    if h = infoHash then s.getPeers infoHash ++ [addr] else s.getPeers h
  total : s'.totalPeers = s.totalPeers + 1
  peersLen : s'.peersLen = s.peersLen + 1
  new : addr ∉ s.getPeers infoHash
  room : s.peersLen.toNat < s.maxRememberedPeers
  near : (infoHash.distance s.selfId).le s.maxDistance = true
  token : ∃ t ∈ s.tokens, t.addr.ip = addr.ip ∧ t.nodeId = id

theorem keepsPeers_self (s : PeerStore) : KeepsPeers s s where
  selfId := rfl
  maxRememberedTokens := rfl
  maxRememberedPeers := rfl
  maxDistance := rfl
  tokens := rfl
  peers _ := rfl
  total := rfl
  peersLen := rfl

/-- The ports and the times may change, the peers do not. -/
theorem keepsPeers_modify {s : PeerStore} {infoHash : InfoHash} {stored stored' : List StoredPeer}
    (hlookup : s.peers.lookup infoHash = some stored)
    (haddrs : stored'.map StoredPeer.addr = stored.map StoredPeer.addr) :
    KeepsPeers s { s with peers := s.peers.modify infoHash fun _ => stored' } := by
  refine ⟨⟨rfl, rfl, rfl, rfl⟩, rfl, ?_, ?_, rfl⟩
  · intro h
    rw [getPeers_modify]
    split
    · next heq =>
      rw [heq, hlookup, Option.elim_some, haddrs, getPeers, hlookup, Option.getD_some]
    · rfl
  · have htotal : (s.peers.modify infoHash fun _ => stored').total List.length +
        stored.length = s.totalPeers + stored'.length :=
      HashMap.total_modify hlookup fun _ => stored'
    have hlen := congrArg List.length haddrs
    rw [List.length_map, List.length_map] at hlen
    show (s.peers.modify infoHash fun _ => stored').total List.length = s.totalPeers
    omega

/-- A peer is added to those of a torrent. -/
theorem getPeers_push {s : PeerStore} {infoHash : InfoHash} {stored : List StoredPeer}
    (hlookup : s.peers.lookup infoHash = some stored) (p : StoredPeer) (h : InfoHash) :
    (s.counted (s.peers.modify infoHash (· ++ [p]))).getPeers h =
      if h = infoHash then s.getPeers infoHash ++ [p.addr] else s.getPeers h := by
  show getPeers { s with peers := s.peers.modify infoHash (· ++ [p]) } h = _
  rw [getPeers_modify]
  split
  · next heq =>
    rw [heq, hlookup, Option.elim_some, List.map_append, getPeers, hlookup, Option.getD_some]
    rfl
  · rfl

theorem total_push {s : PeerStore} {infoHash : InfoHash} {stored : List StoredPeer}
    (hlookup : s.peers.lookup infoHash = some stored) (p : StoredPeer) :
    (s.counted (s.peers.modify infoHash (· ++ [p]))).totalPeers = s.totalPeers + 1 := by
  have htotal : (s.peers.modify infoHash (· ++ [p])).total List.length + stored.length =
      s.totalPeers + (stored ++ [p]).length :=
    HashMap.total_modify hlookup (· ++ [p])
  rw [List.length_append, List.length_singleton] at htotal
  show (s.peers.modify infoHash (· ++ [p])).total List.length = s.totalPeers + 1
  omega

/-- A torrent gets its first peer. -/
theorem getPeers_first {s : PeerStore} {infoHash : InfoHash}
    (hlookup : s.peers.lookup infoHash = none) (p : StoredPeer) (h : InfoHash) :
    (s.counted (s.peers.insert infoHash [p])).getPeers h =
      if h = infoHash then s.getPeers infoHash ++ [p.addr] else s.getPeers h := by
  have hnone : s.getPeers infoHash = [] := by
    rw [getPeers, hlookup]
    rfl
  show getPeers { s with peers := s.peers.insert infoHash [p] } h = _
  rw [getPeers_insert, hnone]
  rfl

theorem total_first {s : PeerStore} {infoHash : InfoHash}
    (hlookup : s.peers.lookup infoHash = none) (p : StoredPeer) :
    (s.counted (s.peers.insert infoHash [p])).totalPeers = s.totalPeers + 1 := by
  rw [totalPeers, counted, HashMap.total_insert_of_notMem (AList.lookup_eq_none.mp hlookup),
    totalPeers, Nat.add_comm]
  rfl

/-- The token that was found was issued to the ip address of the peer. -/
theorem exists_token {s : PeerStore} {id : InfoHash} {token : List UInt8} {addr : SocketAddr}
    (htoken : (s.tokens.any fun t => t.token.1 = token ∧ t.addr = addr ∧ t.nodeId = id) = true)
    (port : UInt16) (impliedPort : UInt8) :
    ∃ t ∈ s.tokens,
      t.addr.ip = (if impliedPort = 0 then setPort port addr else addr).ip ∧ t.nodeId = id := by
  obtain ⟨t, ht, hmatch⟩ := List.any_eq_true.mp htoken
  obtain ⟨_, haddr, hid⟩ := of_decide_eq_true hmatch
  refine ⟨t, ht, ?_, hid⟩
  rw [haddr]
  split
  · rw [ip_setPort]
  · rfl

theorem storePeer_cases (s : PeerStore) (id infoHash : InfoHash) (token : List UInt8)
    (port : UInt16) (impliedPort : UInt8) (addr : SocketAddr) (now : ℤ) :
    KeepsPeers s (s.storePeer id infoHash token port impliedPort addr now).1 ∨
      AddsPeer id infoHash (if impliedPort = 0 then setPort port addr else addr) s
        (s.storePeer id infoHash token port impliedPort addr now).1 := by
  rw [storePeer]
  split
  · exact .inl (keepsPeers_self s)
  next hnear =>
  split
  · exact .inl (keepsPeers_self s)
  next htoken =>
  have hle : (infoHash.distance s.selfId).le s.maxDistance = true := by
    rw [InfoHash.le, Bool.not_eq_true']
    exact Bool.eq_false_of_not_eq_true hnear
  rw [Bool.not_eq_true', Bool.not_eq_false] at htoken
  have hissued := exists_token htoken port impliedPort
  generalize (if impliedPort = 0 then setPort port addr else addr) = addr' at hissued ⊢
  dsimp only
  cases hlookup : s.peers.lookup infoHash with
  | some stored =>
    dsimp only
    split
    · next stored' hrefresh => exact .inl (keepsPeers_modify hlookup (addrs_refresh hrefresh))
    · next hnone =>
      split
      · exact .inl (keepsPeers_self s)
      · next hroom =>
        refine .inr ⟨⟨rfl, rfl, rfl, rfl⟩, rfl, getPeers_push hlookup ⟨addr', now⟩,
          total_push hlookup ⟨addr', now⟩, rfl, ?_, by omega, hle, hissued⟩
        rw [getPeers, hlookup, Option.getD_some]
        exact not_mem_of_refresh hnone
  | none =>
    dsimp only
    split
    · exact .inl (keepsPeers_self s)
    · next hroom =>
      refine .inr ⟨⟨rfl, rfl, rfl, rfl⟩, rfl, getPeers_first hlookup ⟨addr', now⟩,
        total_first hlookup ⟨addr', now⟩, rfl, ?_, by omega, hle, hissued⟩
      rw [getPeers, hlookup]
      exact List.not_mem_nil

section Restore

variable {b : Build} {clock : InfoHash → SocketAddr → ℤ} {selfId : InfoHash}

theorem keys_collectPersisted (s : PeerStore) :
    (s.collectPersisted.map Prod.fst).Nodup := by
  have hkeys := s.peers.keys_nodup
  rw [collectPersisted, List.map_map]
  exact hkeys

theorem total_collectPersisted (s : PeerStore) :
    (s.collectPersisted.map fun e => e.2.length).sum = s.totalPeers := by
  rw [collectPersisted, List.map_map, totalPeers, HashMap.total]
  congr 2
  funext e
  exact List.length_map _

theorem mem_collectPersisted {h : InfoHash} {addrs : List SocketAddr} :
    (h, addrs) ∈ s.collectPersisted ↔
      ∃ stored, s.peers.lookup h = some stored ∧ stored.map StoredPeer.addr = addrs := by
  simp only [collectPersisted, List.mem_map, Prod.mk.injEq]
  constructor
  · rintro ⟨⟨k, stored⟩, hmem, rfl, rfl⟩
    exact ⟨stored, AList.mem_lookup_iff.mpr hmem, rfl⟩
  · rintro ⟨stored, hlookup, rfl⟩
    exact ⟨⟨h, stored⟩, AList.mem_lookup_iff.mp hlookup, rfl, rfl⟩

/-- The loop inserts entries with new keys one by one, and counts their addresses. -/
theorem insertAll_eq {entries : List (InfoHash × List SocketAddr)}
    {peers : HashMap InfoHash (List StoredPeer)} {total : ℕ}
    (hnodup : (entries.map Prod.fst).Nodup) (hnew : ∀ e ∈ entries, e.1 ∉ peers)
    (hlen : total + (entries.map fun e => e.2.length).sum < 2 ^ 32) :
    ∃ peers', insertAll b clock entries (peers, total) =
        .ok (peers', total + (entries.map fun e => e.2.length).sum) ∧
      peers'.total List.length = peers.total List.length +
        (entries.map fun e => e.2.length).sum ∧
      ∀ h, (peers'.lookup h).map (List.map StoredPeer.addr) =
        ((entries.find? fun e => e.1 = h).map Prod.snd).or
          ((peers.lookup h).map (List.map StoredPeer.addr)) := by
  induction entries generalizing peers total with
  | nil => exact ⟨peers, rfl, rfl, fun h => rfl⟩
  | cons e rest ih =>
    obtain ⟨infoHash, addrs⟩ := e
    obtain ⟨hfresh, hnodup⟩ := List.nodup_cons.mp hnodup
    rw [List.map_cons, List.sum_cons] at hlen
    have hinfo : infoHash ∉ peers := hnew (infoHash, addrs) List.mem_cons_self
    have hnew' : ∀ e ∈ rest,
        e.1 ∉ peers.insert infoHash (addrs.map fun addr => ⟨addr, clock infoHash addr⟩) := by
      intro e he hmem
      rcases (AList.mem_insert _).mp hmem with heq | hmem
      · exact hfresh (List.mem_map.mpr ⟨e, he, heq⟩)
      · exact hnew e (List.mem_cons_of_mem _ he) hmem
    dsimp only at hlen
    obtain ⟨peers', hrun, htotal, hpeers⟩ := ih hnodup hnew'
      (show total + addrs.length + (rest.map fun e => e.2.length).sum < 2 ^ 32 by omega)
    refine ⟨peers', ?_, ?_, ?_⟩
    · rw [insertAll, List.length_map, Nat.mod_eq_of_lt (by omega), Build.add_of_lt b (by omega),
        Outcome.ok_bind, hrun, List.map_cons, List.sum_cons, Nat.add_assoc]
    · rw [htotal, HashMap.total_insert_of_notMem hinfo, List.length_map, List.map_cons,
        List.sum_cons]
      dsimp only
      omega
    · intro h
      rw [hpeers, HashMap.lookup_insert_eq]
      by_cases heq : h = infoHash
      · -- the key does not come again
        have hnone : rest.find? (fun e => e.1 = h) = none := by
          rw [List.find?_eq_none]
          intro e he hkey
          exact hfresh (List.mem_map.mpr ⟨e, he, (of_decide_eq_true hkey).trans heq⟩)
        rw [hnone, if_pos heq, List.find?_cons_of_pos (by simp [heq])]
        simp [Function.comp_def]
      · rw [if_neg heq, List.find?_cons_of_neg (by simpa using fun h => heq h.symm)]

/-- The entry of a key, in whichever order the entries come. -/
theorem find_collectPersisted {entries : List (InfoHash × List SocketAddr)}
    (hperm : entries.Perm s.collectPersisted) (h : InfoHash) :
    (entries.find? fun e => e.1 = h).map Prod.snd =
      (s.peers.lookup h).map (List.map StoredPeer.addr) := by
  cases hlookup : s.peers.lookup h with
  | some stored =>
    have hmem : (h, stored.map StoredPeer.addr) ∈ entries :=
      hperm.mem_iff.mpr (mem_collectPersisted.mpr ⟨stored, hlookup, rfl⟩)
    obtain ⟨e, he⟩ := Option.isSome_iff_exists.mp
      (List.find?_isSome.mpr ⟨_, hmem, decide_eq_true rfl⟩ :
        (entries.find? fun e => e.1 = h).isSome = true)
    have hkey : e.1 = h := by simpa using List.find?_some he
    obtain ⟨stored', hstored', haddrs⟩ :=
      mem_collectPersisted.mp (hperm.mem_iff.mp (List.mem_of_find?_eq_some he))
    rw [hkey] at hstored'
    obtain rfl := Option.some.inj (hlookup.symm.trans hstored')
    rw [he, Option.map_some, Option.map_some, haddrs]
  | none =>
    rw [Option.map_none, Option.map_eq_none_iff, List.find?_eq_none]
    intro e he hkey
    obtain ⟨stored, hstored, _⟩ := mem_collectPersisted.mp (hperm.mem_iff.mp he)
    rw [of_decide_eq_true hkey, hlookup] at hstored
    simp at hstored

/-- A store that was restored: the same peers, the settings of a new one, and no tokens. -/
structure RestoredFrom (s : PeerStore) (selfId : InfoHash) (s' : PeerStore) : Prop
    extends SameSettings (new selfId) s' where
  tokens : s'.tokens = []
  peers : ∀ h, s'.getPeers h = s.getPeers h
  total : s'.totalPeers = s.totalPeers
  peersLen : s'.peersLen.toNat = s.totalPeers

/-- A store whose peers a `u32` can count is restored. -/
theorem newWithPersistence_eq {entries : List (InfoHash × List SocketAddr)}
    (hperm : entries.Perm s.collectPersisted) (hlen : s.totalPeers < 2 ^ 32) :
    ∃ s', newWithPersistence b clock selfId entries = .ok s' ∧ RestoredFrom s selfId s' := by
  have hnodup : (entries.map Prod.fst).Nodup :=
    (hperm.map Prod.fst).nodup_iff.mpr s.keys_collectPersisted
  have hsum : (entries.map fun e => e.2.length).sum = s.totalPeers :=
    (hperm.map _).sum_eq.trans s.total_collectPersisted
  obtain ⟨peers, hrun, htotal, hpeers⟩ := @insertAll_eq b clock entries ∅ 0 hnodup
    (fun e _ => AList.notMem_empty e.1) (by omega)
  rw [hsum, Nat.zero_add] at hrun
  rw [hsum] at htotal
  refine ⟨{ new selfId with peers := peers, peersLen := UInt32.ofNat s.totalPeers }, ?_,
    ⟨rfl, rfl, rfl, rfl⟩, rfl, ?_, ?_, ?_⟩
  · rw [newWithPersistence, hrun]
    rfl
  · intro h
    have hh := hpeers h
    rw [find_collectPersisted hperm, AList.lookup_empty, Option.map_none, Option.or_none] at hh
    rw [getPeers, getPeers, ← Option.getD_map (List.map StoredPeer.addr), hh,
      ← Option.getD_map (List.map StoredPeer.addr)]
  · exact htotal.trans (Nat.zero_add _)
  · exact UInt32.toNat_ofNat_of_lt' hlen

end Restore

end PeerStore

/-- The invariant of the runs: the store is sound, has the settings of a new one, and every token
that it remembers was issued. -/
structure StoreInv (x : StoreHistory) : Prop extends StoreSound x where
  maxTokens : x.store.maxRememberedTokens = 1000
  maxPeers : x.store.maxRememberedPeers = 1000
  known : ∀ t ∈ x.store.tokens, (t.nodeId, t.addr) ∈ x.issued

namespace StoreInv

open PeerStore

variable {b : Build} {x x' : StoreHistory}

theorem start (selfId : InfoHash) : StoreInv (.start (.new selfId) []) where
  counted := rfl
  limited := Nat.zero_le _
  distinct _ := List.nodup_nil
  tokens := Nat.zero_le _
  origin _ _ h := absurd h List.not_mem_nil
  added _ h := absurd h List.not_mem_nil
  maxTokens := rfl
  maxPeers := rfl
  known _ h := absurd h List.not_mem_nil

theorem genTokenFor (h : StoreInv x) (nodeId : InfoHash) (addr : SocketAddr) (token : Token) :
    StoreInv { x with
      store := x.store.genTokenFor nodeId addr token
      issued := (nodeId, addr) :: x.issued } where
  counted := h.counted
  limited := h.limited
  distinct := h.distinct
  tokens := by
    have hlen := h.tokens
    dsimp only [PeerStore.genTokenFor]
    split
    · rw [List.length_tail, List.length_append, List.length_singleton]
      exact hlen
    · next hroom => exact Nat.le_of_not_lt hroom
  origin := h.origin
  added p hp := by
    obtain ⟨hnear, a, ha, hip⟩ := h.added p hp
    exact ⟨hnear, a, List.mem_cons_of_mem _ ha, hip⟩
  maxTokens := h.maxTokens
  maxPeers := h.maxPeers
  known t ht := by
    have hpushed : t ∈ x.store.tokens ++ [⟨token, nodeId, addr⟩] := by
      dsimp only [PeerStore.genTokenFor] at ht
      split at ht
      · exact List.mem_of_mem_tail ht
      · exact ht
    rcases List.mem_append.mp hpushed with hold | hnew
    · exact List.mem_cons_of_mem _ (h.known t hold)
    · obtain rfl := List.mem_singleton.mp hnew
      exact List.mem_cons_self

/-- A call that adds no peer. -/
theorem keep (h : StoreInv x) {store : PeerStore} (hkeep : KeepsPeers x.store store) :
    StoreInv { x with store := store } where
  counted := by rw [hkeep.peersLen, hkeep.total, h.counted]
  limited := by
    rw [hkeep.peersLen, hkeep.maxRememberedPeers]
    exact h.limited
  distinct hash := by
    rw [hkeep.peers]
    exact h.distinct hash
  tokens := by
    rw [hkeep.tokens, hkeep.maxRememberedTokens]
    exact h.tokens
  origin hash addr haddr := h.origin hash addr (hkeep.peers hash ▸ haddr)
  added := by
    rw [hkeep.selfId, hkeep.maxDistance]
    exact h.added
  maxTokens := hkeep.maxRememberedTokens.trans h.maxTokens
  maxPeers := hkeep.maxRememberedPeers.trans h.maxPeers
  known := by
    rw [hkeep.tokens]
    exact h.known

/-- The counter does not wrap. -/
theorem toNat_peersLen (h : StoreInv x) {store : PeerStore} {id infoHash : InfoHash}
    {addr : SocketAddr} (hadd : AddsPeer id infoHash addr x.store store) :
    store.peersLen.toNat = x.store.peersLen.toNat + 1 := by
  have hroom := hadd.room
  rw [h.maxPeers] at hroom
  rw [hadd.peersLen, UInt32.toNat_add, UInt32.toNat_one, Nat.mod_eq_of_lt (by omega)]

theorem add (h : StoreInv x) {store : PeerStore} {id infoHash : InfoHash} {addr : SocketAddr}
    (hadd : AddsPeer id infoHash addr x.store store) :
    StoreInv { x with store := store, added := ⟨id, infoHash, addr⟩ :: x.added } where
  counted := by
    show store.peersLen.toNat = store.totalPeers
    rw [h.toNat_peersLen hadd, hadd.total, h.counted]
  limited := by
    show store.peersLen.toNat ≤ store.maxRememberedPeers
    rw [h.toNat_peersLen hadd, hadd.maxRememberedPeers]
    exact hadd.room
  distinct hash := by
    rw [hadd.peers]
    split
    · exact (h.distinct infoHash).append (List.nodup_singleton _)
        (by simpa [List.disjoint_singleton] using hadd.new)
    · exact h.distinct hash
  tokens := by
    rw [hadd.tokens, hadd.maxRememberedTokens]
    exact h.tokens
  origin hash a ha := by
    have hlog : (∃ p ∈ x.added, p.infoHash = hash ∧ p.addr = a) →
        ∃ p ∈ ⟨id, infoHash, addr⟩ :: x.added, p.infoHash = hash ∧ p.addr = a := by
      rintro ⟨p, hp, hpeer⟩
      exact ⟨p, List.mem_cons_of_mem _ hp, hpeer⟩
    rw [hadd.peers] at ha
    split at ha
    · next heq =>
      subst heq
      rcases List.mem_append.mp ha with hold | hnew
      · exact (h.origin hash a hold).imp_right hlog
      · obtain rfl := List.mem_singleton.mp hnew
        exact .inr ⟨_, List.mem_cons_self, rfl, rfl⟩
    · exact (h.origin hash a ha).imp_right hlog
  added p hp := by
    rw [hadd.selfId, hadd.maxDistance]
    rcases List.mem_cons.mp hp with rfl | hp
    · obtain ⟨t, ht, hip, rfl⟩ := hadd.token
      exact ⟨hadd.near, t.addr, h.known t ht, hip⟩
    · exact h.added p hp
  maxTokens := hadd.maxRememberedTokens.trans h.maxTokens
  maxPeers := hadd.maxRememberedPeers.trans h.maxPeers
  known := by
    rw [hadd.tokens]
    exact h.known

/-- A restored store is sound: the peers that it has are those that it was restored with. -/
theorem restored (h : StoreInv x) {store : PeerStore} {selfId : InfoHash}
    {entries : List (InfoHash × List SocketAddr)} (hperm : entries.Perm x.store.collectPersisted)
    (hfrom : RestoredFrom x.store selfId store) : StoreInv (.start store entries) where
  counted := hfrom.peersLen.trans hfrom.total.symm
  limited := by
    show store.peersLen.toNat ≤ store.maxRememberedPeers
    rw [hfrom.peersLen, ← h.counted, hfrom.maxRememberedPeers]
    exact h.limited.trans_eq h.maxPeers
  distinct hash := by
    show (store.getPeers hash).Nodup
    rw [hfrom.peers]
    exact h.distinct hash
  tokens := by
    show store.tokens.length ≤ _
    rw [hfrom.tokens]
    exact Nat.zero_le _
  origin hash addr haddr := by
    change addr ∈ store.getPeers hash at haddr
    rw [hfrom.peers] at haddr
    left
    rw [getPeers] at haddr
    cases hlookup : x.store.peers.lookup hash with
    | none => simp [hlookup] at haddr
    | some stored =>
      rw [hlookup, Option.getD_some] at haddr
      refine ⟨(hash, stored.map StoredPeer.addr), ?_, rfl, haddr⟩
      exact hperm.mem_iff.mpr (mem_collectPersisted.mpr ⟨stored, hlookup, rfl⟩)
  added _ hp := absurd hp List.not_mem_nil
  maxTokens := hfrom.maxRememberedTokens
  maxPeers := hfrom.maxRememberedPeers
  known t ht := by
    change t ∈ store.tokens at ht
    rw [hfrom.tokens] at ht
    exact absurd ht List.not_mem_nil

theorem step {e : StoreEvent} (h : StoreInv x) (hstep : x.step b e = some x') : StoreInv x' := by
  cases e with
  | genTokenFor nodeId addr token =>
    obtain rfl := Option.some.inj hstep
    exact h.genTokenFor nodeId addr token
  | storePeer id infoHash token port impliedPort addr now =>
    obtain rfl := Option.some.inj hstep
    rcases storePeer_cases x.store id infoHash token port impliedPort addr now with hkeep | hadd
    · have hkept := h.keep hkeep
      rwa [if_pos hkeep.peersLen]
    · have hadded := h.add hadd
      have hcount := h.toNat_peersLen hadd
      rwa [if_neg fun heq => by rw [heq] at hcount; omega]
  | restore selfId entries clock =>
    obtain ⟨hperm, hstep⟩ := Option.ite_none_right_eq_some.mp hstep
    have hlen : x.store.totalPeers < 2 ^ 32 := by
      have hlimited := h.limited
      rw [h.counted, h.maxPeers] at hlimited
      omega
    obtain ⟨store, hrun, hfrom⟩ := @newWithPersistence_eq x.store b clock selfId entries hperm hlen
    rw [hrun] at hstep
    obtain rfl := Option.some.inj hstep
    exact h.restored hperm hfrom

end StoreInv

/-- The store is sound after any calls and any restarts. -/
theorem storeSound {b : Build} {x : StoreHistory}
    (hx : (storeRuns b).Reachable System.unguarded x) : StoreSound x := by
  have hinv : (storeRuns b).Invariant System.unguarded StoreInv := by
    refine ⟨?_, fun _ _ _ h _ hstep => h.step hstep⟩
    rintro x ⟨selfId, rfl⟩
    exact StoreInv.start selfId
  exact (hinv.reachable hx).toStoreSound

/-- A node announces a peer, the store is restored, and the node announces itself. -/
def announceRun : List StoreEvent :=
  [.genTokenFor (.ofByte 1) (.v4 ⟨0x0A000001, 6881⟩) ⟨[1, 2, 3, 4], rfl⟩,
    .storePeer (.ofByte 1) (.ofByte 0) [1, 2, 3, 4] 51413 0 (.v4 ⟨0x0A000001, 6881⟩) 0,
    .restore (.ofByte 0) [(.ofByte 0, [.v4 ⟨0x0A000001, 51413⟩])] fun _ _ => 60,
    .genTokenFor (.ofByte 1) (.v4 ⟨0x0A000001, 6881⟩) ⟨[5, 6, 7, 8], rfl⟩,
    .storePeer (.ofByte 1) (.ofByte 0) [5, 6, 7, 8] 0 1 (.v4 ⟨0x0A000001, 6881⟩) 90]

theorem storeSound_announceRun :
    ∃ x, (storeRuns .debug).Reachable System.unguarded x ∧
      x.store.getPeers (.ofByte 0) = [.v4 ⟨0x0A000001, 51413⟩, .v4 ⟨0x0A000001, 6881⟩] ∧
      StoreSound x := by
  have hany : (System.runWhile (StoreHistory.step .debug) (fun _ _ => true)
      (.start (.new (.ofByte 0)) []) announceRun).any (fun x =>
        decide (x.store.getPeers (.ofByte 0) =
          [.v4 ⟨0x0A000001, 51413⟩, .v4 ⟨0x0A000001, 6881⟩])) = true := by
    decide +kernel
  obtain ⟨x, hrun, hpeers⟩ := (Option.any_eq_true _ _).mp hany
  have hreach : (storeRuns .debug).Reachable System.unguarded x :=
    System.runWhile_reachable (fun _ _ _ h => h) (fun _ _ _ => trivial) (.init ⟨_, rfl⟩) hrun
  exact ⟨x, hreach, of_decide_eq_true hpeers, storeSound hreach⟩

end Retorrent.Dht
