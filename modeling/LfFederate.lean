import LfFederate.Run
import LfFederate.Arduino.Critical
import LfFederate.Arduino.Clock
import LfFederate.Arduino.Sleep
import LfFederate.Wire
import LfFederate.Coordinator
import LfFederate.TimeAdvance
import LfFederate.Promise
import LfFederate.Writers
import LfFederate.PortScan
import LfFederate.PeerConnect
import LfFederate.P2P
import LfFederate.Handshake
import LfFederate.PeerReader
import LfFederate.RtiReader
import LfFederate.Delivery
import LfFederate.Session
import LfFederate.Start
