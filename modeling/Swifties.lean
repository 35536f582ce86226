import Swifties.ApiFrames
import Swifties.ApiIsolation
import Swifties.ApiListing
import Swifties.ApiRecords
import Swifties.ApiRefinement
import Swifties.ApiRoundTrip
import Swifties.ApiSafety
import Swifties.Base64
import Swifties.Base64Decoding
import Swifties.Base64Overflow
import Swifties.BlockGrammar
import Swifties.BlockOrders
import Swifties.BlockPointers
import Swifties.BlockSites
import Swifties.BlockSymbols
import Swifties.ClientIsolation
import Swifties.ConfigEnding
import Swifties.ConfigGrammar
import Swifties.ConfigLanguage
import Swifties.ConfigLayout
import Swifties.ConfigNumbers
import Swifties.ConfigOutcome
import Swifties.ConfigParser
import Swifties.ConfigPrinter
import Swifties.ConfigQueries
import Swifties.ConfigReprint
import Swifties.ConfigSearch
import Swifties.ConfigTokenizer
import Swifties.ConfigTree
import Swifties.Confinement
import Swifties.CrudHandler
import Swifties.CrudRefinement
import Swifties.Deployment
import Swifties.DeploymentRuns
import Swifties.Dispatcher
import Swifties.DispatcherRuns
import Swifties.EntityIsolation
import Swifties.FilePaths
import Swifties.FileTree
import Swifties.HandlerAnswers
import Swifties.HandlerPrefixes
import Swifties.Http
import Swifties.IoService
import Swifties.IoServiceRecords
import Swifties.IoServiceRuns
import Swifties.Machine
import Swifties.ParserRuns
import Swifties.PathClimbs
import Swifties.Pool
import Swifties.Records
import Swifties.RequestHandlerAPI
import Swifties.RequestHandlers
import Swifties.ResponseFields
import Swifties.ResponseReuse
import Swifties.Routing
import Swifties.RoutingTable
import Swifties.Server
import Swifties.ServiceConfinement
import Swifties.Session
import Swifties.SessionClock
import Swifties.SessionCredentials
import Swifties.SessionOperations
import Swifties.SessionReads
import Swifties.SessionReplay
import Swifties.SessionRuns
import Swifties.Startup
import Swifties.Strangers
import Swifties.Text
import Swifties.TokenSpelling
import Swifties.TokenStreams
