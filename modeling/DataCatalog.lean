import DataCatalog.CommandLine.Directory
import DataCatalog.Main
import DataCatalog.Proofs.Canonical
import DataCatalog.Proofs.Encodable
import DataCatalog.Proofs.RoundTrip
import DataCatalog.Proofs.DefaultKind
import DataCatalog.Proofs.MetadataForms
import DataCatalog.Proofs.Operations
import DataCatalog.Proofs.AllOrNothing
import DataCatalog.Proofs.PercentEncoding
import DataCatalog.Proofs.Requests
import DataCatalog.Proofs.Splitting
import DataCatalog.Proofs.Addresses
import DataCatalog.Proofs.Targets
import DataCatalog.Proofs.PlainTargets
import DataCatalog.Proofs.SearchQuery
import DataCatalog.Proofs.Views
import DataCatalog.Proofs.Precedence
import DataCatalog.Proofs.JsonRoundTrip
import DataCatalog.Proofs.PackRoundTrip
import DataCatalog.Proofs.History
import DataCatalog.Proofs.Members
import DataCatalog.Proofs.MemberOrder
import DataCatalog.Proofs.Retention
import DataCatalog.Proofs.Depth
import DataCatalog.Proofs.Printed
import DataCatalog.Proofs.FalsyExtras
import DataCatalog.Proofs.MetadataHistory
import DataCatalog.Proofs.CreateRequest
import DataCatalog.Proofs.MetadataText
import DataCatalog.Proofs.Unwritable
import DataCatalog.Proofs.Faults
import DataCatalog.Proofs.WholeNumbers
import DataCatalog.Proofs.Remarks
import DataCatalog.Proofs.WholeParts
import DataCatalog.Proofs.AssignedMetadata
import DataCatalog.Proofs.BaseUrls
import DataCatalog.Proofs.ServiceRoot
