import PgFort.AclCoverage
import PgFort.AclFrame
import PgFort.WithScope
import PgFort.ReadableRows
import PgFort.Revocation
import PgFort.DroppedArtifacts
import PgFort.SqlForwarding
import PgFort.TableTracking
import PgFort.StatementLists
import PgFort.RoleNames
import PgFort.CommentTokens
import PgFort.Batches
import PgFort.RoleTracking
import PgFort.Scheduling
import PgFort.RequestCycles
import PgFort.Forwarding
import PgFort.MandatoryFields
import PgFort.ResponseEnds
import PgFort.PrintInfo
import PgFort.TransactionStatus
import PgFort.SessionOperator
import PgFort.DequeRefinement
import PgFort.StartupScan
import PgFort.ErrorResponses
import PgFort.QueryFrames
import PgFort.RoleQueries
import PgFort.InjectedNames
import PgFort.GeneratedNames
import PgFort.TableNames
import PgFort.NodeGrammar
import PgFort.InsertedKeys
import PgFort.PrintedFields
import PgFort.Containment
import PgFort.Terminations
import PgFort.ClosedServers
import PgFort.StartupMessages
import PgFort.ThreadPools
import PgFort.QueueOrder
import PgFort.LayoutInvariance
import PgFort.PushedValues
import PgFort.ServedQueries
import PgFort.Refusals
