import Thingd.ThingDb.Failure
import Thingd.Engine.Keyspace
import Thingd.Engine.QueueRepeat
import Thingd.ThingDb.Isolation
import Thingd.ThingDb.FirstAtomic
import Thingd.ThingDb.PageSnapshot
import Thingd.Engine.BatchApart
import Thingd.Engine.SearchPrivacy
import Thingd.Replication.Gaps
import Thingd.Replication.Retry
import Thingd.ThingDb.Writer
import Thingd.ThingDb.CacheLru
import Thingd.ThingDb.PointReads
import Thingd.Engine.QueueAttempts
import Thingd.Engine.Like
import Thingd.Engine.LegacyReady
import Thingd.Engine.EncryptionSetup
import Thingd.Engine.TopHits
import Thingd.Engine.EventAppends
import Thingd.Engine.EventPages
import Thingd.Engine.LinkRun
import Thingd.Server.EnginePool
import Thingd.Server.Jwks
import Thingd.Engine.ValueOrder
