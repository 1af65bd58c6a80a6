import SessionTrail.Event.Wire
import SessionTrail.Session.Outages
import SessionTrail.Program.Submission
import SessionTrail.Program.Launch
import SessionTrail.Proofs.Frame
import SessionTrail.Proofs.Attempt
import SessionTrail.Proofs.Standing
import SessionTrail.Proofs.World
import SessionTrail.Proofs.Narrow
import SessionTrail.Proofs.Attachment
import SessionTrail.Proofs.Reach
import SessionTrail.Proofs.Gone
import SessionTrail.Proofs.Calm
import SessionTrail.Proofs.AtMostOnce
import SessionTrail.Proofs.Mail
import SessionTrail.Proofs.Quiet
import SessionTrail.Proofs.Exchange
import SessionTrail.Proofs.Crumbs
import SessionTrail.Proofs.ExactlyOnce
import SessionTrail.Proofs.Crash
import SessionTrail.Proofs.Enrichers
import SessionTrail.Proofs.Setups
import SessionTrail.Proofs.Registered
import SessionTrail.Proofs.Trouble
import SessionTrail.Proofs.Between
import SessionTrail.Proofs.RollBack
import SessionTrail.Proofs.Course
import SessionTrail.Proofs.Race
import SessionTrail.Proofs.Footing
import SessionTrail.Proofs.Orderly
import SessionTrail.Proofs.RaceOutcome
import SessionTrail.Proofs.Filling
import SessionTrail.Proofs.Capture
import SessionTrail.Proofs.History
import SessionTrail.Proofs.Subscriptions
import SessionTrail.Proofs.Numerals
import SessionTrail.Proofs.Rendering
import SessionTrail.Proofs.Rescan
import SessionTrail.Proofs.Instants
import SessionTrail.Proofs.Records
import SessionTrail.Proofs.Parts
import SessionTrail.Proofs.Nesting
import SessionTrail.Proofs.EventText
import SessionTrail.Proofs.Slots
import SessionTrail.Proofs.Omission
import SessionTrail.Proofs.ReportText
import SessionTrail.Proofs.Overlook
import SessionTrail.Proofs.WorkerLoop
import SessionTrail.Proofs.WorkerAlone
import SessionTrail.Proofs.Silence
import SessionTrail.Proofs.Evolution
import SessionTrail.Proofs.Branding
import SessionTrail.Proofs.OwnIdentity
import SessionTrail.Proofs.Untrailed
import SessionTrail.Proofs.Disabled
import SessionTrail.Proofs.Offstage
import SessionTrail.Proofs.Reads
import SessionTrail.Proofs.Idempotence
import SessionTrail.Proofs.Assigned
import SessionTrail.Proofs.Forgetting
import SessionTrail.Proofs.Registrations
import SessionTrail.Proofs.Refreshes
import SessionTrail.Proofs.Windows
import SessionTrail.Proofs.Pipeline
import SessionTrail.Proofs.Profile
import SessionTrail.Proofs.Identified
import SessionTrail.Proofs.Inert
import SessionTrail.Proofs.Callbacks
import SessionTrail.Proofs.PropertyWrites
import SessionTrail.Proofs.Retention
import SessionTrail.Proofs.Spelling
import SessionTrail.Proofs.EventSpelling
import SessionTrail.Proofs.SessionText
