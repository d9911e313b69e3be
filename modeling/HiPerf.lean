import HiPerf.Book.History
import HiPerf.Book.PriceTime
import HiPerf.Churn.Prices
import HiPerf.Condvar.Progress
import HiPerf.Cow.Minimal
import HiPerf.Echo.Progress
import HiPerf.Go.Restart
import HiPerf.Go.Trace
import HiPerf.Go.Twins
import HiPerf.Journal.Baseline
import HiPerf.Journal.Headline
import HiPerf.Live.Progress
import HiPerf.Mpsc.Progress
import HiPerf.Ring.Safety
import HiPerf.Serial.Agree
import HiPerf.Snapshot.Burst
import HiPerf.Snapshot.Head
import HiPerf.Snapshot.Swap
import HiPerf.Snapshot.Loss
import HiPerf.Snapshot.Exact
import HiPerf.Snapshot.Mismatch
import HiPerf.Snapshot.Untrusted
import HiPerf.Ultima.Batch
import HiPerf.Ultima.Gates
import HiPerf.Java.Stream
import HiPerf.Java.Agree
import HiPerf.Java.Image
import HiPerf.Java.Cow
import HiPerf.Java.Mirror
import HiPerf.Java.Roots
import HiPerf.Java.Twins
