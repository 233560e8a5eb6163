import Corosched.Handback
import Corosched.Handoff
import Corosched.Master
import Corosched.Mutex
import Corosched.Reclaim
import Corosched.Running
import Corosched.Delivery
import Corosched.Wakeup
import Corosched.Rbtree.Balance
import Corosched.Requeue
import Corosched.Readiness
import Corosched.Sending
import Corosched.Startup
import Corosched.Stop
import Corosched.Removal
import Corosched.Returns
import Corosched.Ending
import Corosched.Rbtree.Membership
import Corosched.Rbtree.Priority
import Corosched.Deque
import Corosched.Switch
import Corosched.Contexts
import Corosched.Stack
import Corosched.Jam
import Corosched.Owner
import Corosched.Failing
import Corosched.Waiting
import Corosched.Stream
import Corosched.Strings
import Corosched.Log
