import CqIrc.Flex.Munch
import CqIrc.Grammar
import CqIrc.Reports
import CqIrc.Threads
import CqIrc.Writing
import CqIrc.Replies
import CqIrc.Generic
import CqIrc.Assignments
import CqIrc.Incoming
import CqIrc.Optional
import CqIrc.Fmt.Messages
import CqIrc.Formatting
import CqIrc.Delivery
import CqIrc.Transmission
import CqIrc.Asio.Streambuf
import CqIrc.Asio.ReadUntil
import CqIrc.Asio.Stopping
import CqIrc.Reading
import CqIrc.Closing
