import BitTorrentClient.Basic
import BitTorrentClient.Crypto.Sha1
import BitTorrentClient.Torrent.Torrent
import BitTorrentClient.Piece.Piece
import BitTorrentClient.Piece.Manager
import BitTorrentClient.Piece.Strategy
import BitTorrentClient.Piece.Store
import BitTorrentClient.Piece.Invariants
import BitTorrentClient.Piece.Fetch
import BitTorrentClient.Piece.Lifecycle
import BitTorrentClient.Piece.RequestCount
import BitTorrentClient.Disk.Path
import BitTorrentClient.Disk.Manager
import BitTorrentClient.Disk.Layout
import BitTorrentClient.Disk.Pieces
import BitTorrentClient.Piece.Storage
import BitTorrentClient.Peer.Message
import BitTorrentClient.Peer.Peer
import BitTorrentClient.Peer.Manager
import BitTorrentClient.Peer.Pool
import BitTorrentClient.Peer.Shutdown
import BitTorrentClient.Peer.Upload
import BitTorrentClient.Download.Coordinator
import BitTorrentClient.Download.Client
import BitTorrentClient.Download.Requests
import BitTorrentClient.Bencode.Value
import BitTorrentClient.Bencode.Decode
import BitTorrentClient.Bencode.RoundTrip
import BitTorrentClient.Bencode.Canonical
import BitTorrentClient.Bencode.Termination
import BitTorrentClient.Torrent.Parse
import BitTorrentClient.Torrent.Accepted
import BitTorrentClient.Torrent.Files
import BitTorrentClient.Peer.Handshake
import BitTorrentClient.Tracker.Compact
import BitTorrentClient.Tracker.Announce
import BitTorrentClient.Tracker.Response
