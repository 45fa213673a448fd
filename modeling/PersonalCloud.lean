import PersonalCloud.Client.Discard
import PersonalCloud.Client.History
import PersonalCloud.Client.Main
import PersonalCloud.Client.Pending
import PersonalCloud.Client.Race
import PersonalCloud.Client.SyncOnce
import PersonalCloud.Client.Watch
import PersonalCloud.Client.WatchLoop
import PersonalCloud.Core.Opening
import PersonalCloud.Core.Stream
import PersonalCloud.Library.Stamped
import PersonalCloud.Server.Json
import PersonalCloud.System.Accounts
import PersonalCloud.System.Commands
import PersonalCloud.System.Credentials
import PersonalCloud.System.DedupTags
import PersonalCloud.System.Downloads
import PersonalCloud.System.Endings
import PersonalCloud.System.Framing
import PersonalCloud.System.Interop
import PersonalCloud.System.Isolation
import PersonalCloud.System.KeepAlive
import PersonalCloud.System.Names
import PersonalCloud.System.Reload
import PersonalCloud.System.Retrieval
import PersonalCloud.System.Rollback
import PersonalCloud.System.SignIn
import PersonalCloud.System.Skips
import PersonalCloud.System.Tags
import PersonalCloud.System.Urls
