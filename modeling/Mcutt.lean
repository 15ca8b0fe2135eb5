import Mcutt.Packets.Outgoing
import Mcutt.Packets.Filters
import Mcutt.Packets.Server
import Mcutt.Slab.LostSlots
import Mcutt.Sync.Oversized
import Mcutt.Sync.PartialWrites
import Mcutt.Packets.ConnectDecode
import Mcutt.Packets.Builders
import Mcutt.Packets.Grammar
import Mcutt.Sync.EventOrder
import Mcutt.Sync.KeepAlive
import Mcutt.Sync.FinalPacket
import Mcutt.Sync.Readiness
import Mcutt.Fixed.Agreement
import Mcutt.Sync.Indices
import Mcutt.Sync.Leftover
import Mcutt.Sync.Credits
import Mcutt.Sync.Reconnect
import Mcutt.Sync.Session
import Mcutt.Sync.Arrivals
import Mcutt.Sync.Malformed
import Mcutt.Slab.Indexes
import Mcutt.Sync.Publishing
import Mcutt.Sync.Panics
