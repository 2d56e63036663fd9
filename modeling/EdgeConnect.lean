import EdgeConnect.Ingest.PriceBookPrefix
import EdgeConnect.Ingest.PriceBookReplay
import EdgeConnect.Ingest.PriceBookServe
import EdgeConnect.Ingest.PriceBookShape
import EdgeConnect.Ingest.PriceBookStrikes
import EdgeConnect.Ingest.BookPrefix
import EdgeConnect.Ingest.BookRecovery
import EdgeConnect.Ingest.BookRewind
import EdgeConnect.Ingest.BookLevels
import EdgeConnect.Ingest.BookMirror
import EdgeConnect.Ingest.Floor
import EdgeConnect.Ingest.UpdateIdFloor
import EdgeConnect.Ingest.ChannelClock
import EdgeConnect.Ingest.OrderRace
import EdgeConnect.Ingest.AuthorityHold
import EdgeConnect.Ingest.ArbiterReplay
import EdgeConnect.Ingest.ArbiterResurrection
import EdgeConnect.Ingest.ReconcilePurge
import EdgeConnect.Ingest.ReconcileTape
import EdgeConnect.Ingest.RegistrySound
import EdgeConnect.Ingest.Health
import EdgeConnect.Ingest.MbpOpenEvents
import EdgeConnect.Ingest.MbpMirror
import EdgeConnect.Ingest.CodecMbo
import EdgeConnect.Ingest.CodecMbpRoundTrip
import EdgeConnect.Products
import EdgeConnect.Cli.Channels
import EdgeConnect.Sinks.WsSlot
import EdgeConnect.Sinks.WsWatermark
import EdgeConnect.Sinks.HlSnapshotFirst
import EdgeConnect.Sinks.HlDiffs
import EdgeConnect.Shred.Merkle
import EdgeConnect.Shred.Forwarder
import EdgeConnect.Sinks.WsScope
import EdgeConnect.Model.Completeness
import EdgeConnect.Ingest.MboMirror
import EdgeConnect.Ingest.MboContained
import EdgeConnect.Ingest.MboRows
import EdgeConnect.Ingest.TradeWindow
import EdgeConnect.Ingest.PathRacePairs
import EdgeConnect.Ingest.TapeLead
import EdgeConnect.Ingest.BookRemoved
import EdgeConnect.Ingest.BookArith
import EdgeConnect.Ingest.MbpBookkeeping
import EdgeConnect.Ingest.MbpHealth
import EdgeConnect.Ingest.AuthorityEviction
import EdgeConnect.Ingest.ArbiterTombstones
import EdgeConnect.Model.Materialize
import EdgeConnect.Ingest.BoundedSeq
import EdgeConnect.Ingest.SourcePaths
import EdgeConnect.History.Candles
import EdgeConnect.History.Resolve
import EdgeConnect.Sinks.HlBuckets
import EdgeConnect.Sinks.ApiPaging
import EdgeConnect.Sinks.ApiBooks
import EdgeConnect.Ingest.ChannelGrammar
import EdgeConnect.Ingest.MarketQueues
import EdgeConnect.Shred.Leader
import EdgeConnect.Cli.Client
import EdgeConnect.Ingest.ArbiterQuotes
import EdgeConnect.Ingest.ArbiterTrades
import EdgeConnect.Ingest.TobAnnounced
import EdgeConnect.Ingest.TobIsolated
import EdgeConnect.Ingest.CodecRoundTrip
