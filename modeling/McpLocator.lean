import McpLocator.Broker.Acceptance
import McpLocator.Broker.Approval
import McpLocator.Broker.Audit
import McpLocator.Broker.Departure
import McpLocator.Broker.Dialogs
import McpLocator.Broker.FailedStart
import McpLocator.Broker.FailedWrite
import McpLocator.Broker.Handles
import McpLocator.Broker.IdleWindow
import McpLocator.Broker.InUse
import McpLocator.Broker.LaunchBinding
import McpLocator.Broker.Merge
import McpLocator.Broker.Pressed
import McpLocator.Broker.Prompt
import McpLocator.Broker.SharedFile
import McpLocator.Broker.StalePrompt
import McpLocator.Broker.Timestamp
import McpLocator.Broker.Verbatim
import McpLocator.Broker.Vetting
import McpLocator.Client.Bootstrap
import McpLocator.Client.Calls
import McpLocator.Client.Canonical
import McpLocator.Client.CardAgreement
import McpLocator.Client.Conformance
import McpLocator.Client.Consent
import McpLocator.Client.Dirs
import McpLocator.Client.HashAgreement
import McpLocator.Client.InstallRoot
import McpLocator.Client.Startup
import McpLocator.Client.Watch
import McpLocator.ConsentUi.Provenance
import McpLocator.Gateway.Activatable
import McpLocator.Gateway.Agreement
import McpLocator.Gateway.FailedActivation
import McpLocator.Gateway.Session
