import Mathlib.Order.Nat

/-!
# Shared types
-/

namespace Retorrent

inductive FilePriority where
  | skip
  | low
  | normal
  | high
  deriving DecidableEq, Repr

inductive TorrentState where
  | checking
  | downloading
  | seeding
  | paused
  | queued
  | error
  | complete
  | fetchingMetadata
  deriving DecidableEq, Repr

inductive PrevState where
  | running
  | paused
  deriving DecidableEq, Repr

/-- An IPv4 address with a port. -/
structure SocketAddrV4 where
  ip : UInt32
  port : UInt16
  deriving DecidableEq

/-- An IPv6 address with a port, flow information and a scope. -/
structure SocketAddrV6 where
  ip : BitVec 128
  port : UInt16
  flowinfo : UInt32
  scopeId : UInt32
  deriving DecidableEq

inductive SocketAddr where
  | v4 (addr : SocketAddrV4)
  | v6 (addr : SocketAddrV6)
  deriving DecidableEq

/-- `SocketAddr::is_ipv6`. -/
def SocketAddr.isIpv6 : SocketAddr → Bool
  | v4 _ => false
  | v6 _ => true

/-- `BLOCK_SIZE`. -/
def blockSize : ℕ := 16384

end Retorrent
