import Retorrent.Rustlib.Outcome
import Retorrent.Rustlib.Str
import Retorrent.Rustlib.BTreeMap
import Retorrent.Bencode.Parser
import Retorrent.Bencode.Grammar
import Retorrent.Bencode.Leaves
import Retorrent.Bencode.Correct
import Retorrent.Bencode.Safety
import Retorrent.Bencode.Encode
import Retorrent.Bencode.RoundTrip
import Retorrent.Bencode.Info
import Retorrent.Metainfo
import Retorrent.Metainfo.InfoHash
import Retorrent.Metainfo.Paths
import Retorrent.Metainfo.Geometry
import Retorrent.Piece
import Retorrent.Network.Metadata
import Retorrent.Systems.Transition
import Retorrent.Network.Download
import Retorrent.Network.Session
import Retorrent.Engine
import Retorrent.Peer.Message
import Retorrent.Peer.Recv
import Retorrent.Peer.Stream
import Retorrent.Network.Receive
import Retorrent.Network.Peers
import Retorrent.Peer.Bitfield
import Retorrent.Piece.Select
import Retorrent.Network.Swarm
import Retorrent.Network.Attached
import Retorrent.Dht.Protocol
import Retorrent.Dht.RoundTrip
import Retorrent.Network.Moves
import Retorrent.Network.Labels
import Retorrent.Network.Once
import Retorrent.Network.Torrent
import Retorrent.Network.Verified
import Retorrent.Network.Advertised
import Retorrent.Network.Announce
import Retorrent.Network.Told
import Retorrent.Dht.InfoHash
import Retorrent.Numbers.Dyadic
import Retorrent.Dht.RoutingTable
import Retorrent.Dht.BucketTree
import Retorrent.Dht.Node
import Retorrent.Dht.Unanswered
import Retorrent.Dht.Lookup
import Retorrent.Dht.Processed
import Retorrent.Engine.Queue
import Retorrent.Rustlib.Lru
import Retorrent.Storage.Read
import Retorrent.Network.Availability
import Retorrent.Storage.RoundTrip
import Retorrent.Network.Known
import Retorrent.Peer.Metadata
import Retorrent.Peer.Extended
import Retorrent.Network.Extended
import Retorrent.Network.ExtensionIds
import Retorrent.Network.Serving
import Retorrent.Network.Fetching
import Retorrent.Network.DhtLoop
import Retorrent.Engine.Removal
import Retorrent.Network.Cleanup
import Retorrent.Piece.Blocks
import Retorrent.Peer.Scan
import Retorrent.Peer.Integers
import Retorrent.Storage.Coherence
import Retorrent.Engine.Paused
import Retorrent.Network.Restarted
import Retorrent.Dht.PeerStore
import Retorrent.Rustlib.Json
import Retorrent.Dht.Leaves
import Retorrent.Dht.Persistence
import Retorrent.Dht.Restart
import Retorrent.Engine.Reload
import Retorrent.Piece.Claims
import Retorrent.Piece.Delivery
import Retorrent.Piece.Priorities
import Retorrent.Network.Opened
import Retorrent.Network.Pipeline
import Retorrent.Webseed.Chunks
import Retorrent.Webseed.Run
import Retorrent.Webseed.Flights
import Retorrent.Webseed.Exit
import Retorrent.Webseed.Worker
import Retorrent.Dht.PerIp
import Retorrent.Dht.Useful
import Retorrent.Dht.Count
import Retorrent.Dht.Closest
import Retorrent.Dht.Callbacks
import Retorrent.Network.Finalize
import Retorrent.Engine.Readded
import Retorrent.Storage.Mapped
import Retorrent.Network.Recheck
import Retorrent.Bencode.Canonical
import Retorrent.Peer.Payloads
import Retorrent.Bencode.Depth
import Retorrent.Network.Decoded
import Retorrent.Dht.Optional
import Retorrent.Dht.Entries
import Retorrent.Dht.Requests
import Retorrent.Dht.Vouched
import Retorrent.Dht.Replies
import Retorrent.Network.Choke
import Retorrent.Numbers.Radix
import Retorrent.Base32
import Retorrent.Rustlib.Split
import Retorrent.Magnet
import Retorrent.Rustlib.IpText
import Retorrent.Systems.Failover
import Retorrent.Tracker
import Retorrent.Tracker.Response
import Retorrent.Tracker.Url
import Retorrent.Tracker.Udp
import Retorrent.Tracker.Exchange
import Retorrent.Network.TrackerActs
import Retorrent.Dht.Announced
import Retorrent.Dht.Bep42
import Retorrent.Network.Uploads
import Retorrent.Network.Transfer
import Retorrent.Peer.Handshake
import Retorrent.Dht.PeersLookup
import Retorrent.Dht.PeersActs
import Retorrent.Dht.Rendezvous
import Retorrent.Network.Pex
import Retorrent.Network.PexSwarm
import Retorrent.Dht.ExternalIp
import Retorrent.Dht.Dump
import Retorrent.Rustlib.FileTree
import Retorrent.Storage.Delete
