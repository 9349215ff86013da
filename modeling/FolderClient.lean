import FolderClient.Storage.JournalRuns
import FolderClient.Storage.AnchorRuns
import FolderClient.Engine.DeviceKey
import FolderClient.Engine.DeviceKeyRuns
import FolderClient.Storage.ErasedRuns
import FolderClient.Core.IdentifierText
import FolderClient.Core.Time
import FolderClient.Library.Json
import FolderClient.Crypto.Jws
import FolderClient.Crypto.Entries
import FolderClient.Crypto.Anchoring
import FolderClient.Crypto.RevocationRuns
import FolderClient.Storage.Delivery
import FolderClient.Storage.DeliveryRuns
import FolderClient.Library.Histories
import FolderClient.Wire.Delivery
import FolderClient.Engine.Port
import FolderClient.Engine.Session
import FolderClient.Engine.Reconcile
import FolderClient.Library.Pools
import FolderClient.Engine.Effects
import FolderClient.Engine.Channel
import FolderClient.Engine.Play
import FolderClient.Engine.Orderly
import FolderClient.Engine.Outcomes
import FolderClient.Engine.EtagRuns
import FolderClient.Core.Filename
import FolderClient.Core.Listing
import FolderClient.Cfapi.Checks
import FolderClient.Cfapi.Names
import FolderClient.Net.Access
import FolderClient.Storage.Log
import FolderClient.Storage.LogRuns
import FolderClient.Engine.Transfers
import FolderClient.Engine.Hydration
import FolderClient.Engine.Source
import FolderClient.Engine.HydrationRuns
import FolderClient.Engine.ShownRuns
import FolderClient.Engine.Locking
import FolderClient.App.Vault
import FolderClient.Engine.RotationRuns
import FolderClient.Engine.KeyRuns
import FolderClient.Engine.OnceRuns
import FolderClient.Engine.StateRuns
import FolderClient.Engine.HintRuns
import FolderClient.Library.Transcripts
import FolderClient.Engine.AuthenticRuns
import FolderClient.Engine.Turns
import FolderClient.Engine.CursorRuns
import FolderClient.Engine.ErasureRuns
import FolderClient.Engine.ReleaseRuns
import FolderClient.Engine.SessionRuns
import FolderClient.Engine.AccountRuns
import FolderClient.Crypto.Reload
import FolderClient.Core.Calendar
import FolderClient.Crypto.TrustRuns
import FolderClient.Crypto.Canonical
import FolderClient.Crypto.Detached
import FolderClient.Crypto.Origins
import FolderClient.Net.Transport
import FolderClient.Net.Paging
import FolderClient.Net.DeviceFlow
import FolderClient.Engine.IngestRuns
import FolderClient.App.VaultRuns
import FolderClient.Cfapi.PoolRuns
import FolderClient.Cfapi.CancelRuns
import FolderClient.Bridge.Transparency
import FolderClient.FileProvider.PageRuns
import FolderClient.FileProvider.ChangeRuns
import FolderClient.App.PlaceRuns
import FolderClient.Engine.RateRuns
import FolderClient.Core.IdentifierCodec
import FolderClient.Core.Diffs
import FolderClient.Storage.Replacement
import FolderClient.Core.Titles
import FolderClient.FileProvider.Identifier
import FolderClient.Core.Timestamps
import FolderClient.Cfapi.Mirror
import FolderClient.Cfapi.ReportRuns
import FolderClient.Cfapi.Reconciling
import FolderClient.Cfapi.Stages
import FolderClient.Cfapi.OfferRuns
import FolderClient.Cfapi.FlightRuns
import FolderClient.Crypto.Fingerprint
import FolderClient.Net.Challenge
import FolderClient.I18n.Catalogues
import FolderClient.Cfapi.BlockRuns
import FolderClient.Bridge.Grammar
import FolderClient.Engine.Siblings
import FolderClient.Engine.SignOut
import FolderClient.Engine.WatchRuns
import FolderClient.App.SlotRuns
import FolderClient.App.Counterparts
import FolderClient.App.ReadBack
import FolderClient.App.StartRuns
import FolderClient.Cfapi.PathKeys
import FolderClient.Cfapi.PathRuns
import FolderClient.Storage.SchemaAlone
import FolderClient.Storage.RowReading
import FolderClient.I18n.Rendering
import FolderClient.Crypto.Compact
