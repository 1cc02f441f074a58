import AuxStorage.UpdateOrder
import AuxStorage.SystemStream.Split
import AuxStorage.Admission.Accounting
import AuxStorage.ReadSequence.Schedule
import AuxStorage.Replication.Application
import AuxStorage.Partition.OrderedLog
import AuxStorage.Partition.Queue
import AuxStorage.UpdateRequestCache
import AuxStorage.DocumentPathLaws
import AuxStorage.ReadSequence.Templates
import AuxStorage.Replication.Clock
import AuxStorage.Replication.Coverage
import AuxStorage.DynamodbNumberProjection
import AuxStorage.Retention.HistoryCleanup
import AuxStorage.KeyIdentity
import AuxStorage.Pubsub.Fanout
import AuxStorage.UpdateChain
import AuxStorage.ValueEquality
import AuxStorage.DynamodbNumberCodec
import AuxStorage.KeyCondition
import AuxStorage.Ttl.Planner
import AuxStorage.SqlPrefix
