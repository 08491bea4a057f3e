import FlyOnTheWall.Pipeline.AecSession
import FlyOnTheWall.Pipeline.AecWorkerRun
import FlyOnTheWall.Pipeline.Retire
import FlyOnTheWall.Failover.CoverageRecovery
import FlyOnTheWall.Failover.Completion
import FlyOnTheWall.Failover.Finals
import FlyOnTheWall.Failover.LocalWork
import FlyOnTheWall.Shell.Consent
import FlyOnTheWall.Shell.Audit
import FlyOnTheWall.Pipeline.OpusArchive
import FlyOnTheWall.Failover.ProcessingRun
import FlyOnTheWall.Store.RoundTrip
import FlyOnTheWall.Store.Resume
import FlyOnTheWall.Secrets.Redact
import FlyOnTheWall.Repair.RestoreRun
import FlyOnTheWall.Pipeline.CaptureClock
import FlyOnTheWall.PostPass.Resume
import FlyOnTheWall.PostPass.Turns
import FlyOnTheWall.PostPass.Dedupe
import FlyOnTheWall.PostPass.Controller
import FlyOnTheWall.Pipeline.Sweep
import FlyOnTheWall.Github.Index
import FlyOnTheWall.Github.Retries
import FlyOnTheWall.Stt.Deepgram
