import Helmr.BlockFormat.Publication
import Helmr.BlockFormat.Coalesce
import Helmr.Disk.Linearizable
import Helmr.Reservation.LedgerSpec
import Helmr.Guest.Ownership
import Helmr.Guest.Resume
import Helmr.Guest.Delivery
import Helmr.Secret.PlacementSpec
import Helmr.Network.FirewallSpec
import Helmr.Network.DocumentSpec
import Helmr.Mcp.PolicySpec
import Helmr.Mcp.Canonical
import Helmr.Mcp.Inclusion
import Helmr.Org.RolesSpec
import Helmr.Nbd.TransmissionSpec
import Helmr.Disk.RangeCacheSpec
import Helmr.Disk.VersionDeviceSpec
import Helmr.Disk.LocalVersionSpec
import Helmr.Disk.InitialVersionSpec
import Helmr.Filepack.DecodeSpec
import Helmr.Filepack.PackSpec
import Helmr.Archive.ExcludeSpec
import Helmr.Mcp.Ambiguity
import Helmr.Disk.VersionRoot
import Helmr.Definition.Cron
import Helmr.SecretProxy.ClientHelloSpec
import Helmr.Secret.OriginSpec
import Helmr.SecretProxy.MarkersSpec
import Helmr.Checkpoint.Objects
import Helmr.SecretProxy.Egress
