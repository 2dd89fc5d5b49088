import EnvelopeVault.Operation
import EnvelopeVault.PoolSession
import EnvelopeVault.Proofs.CanonicalBase64
import EnvelopeVault.Proofs.Commuting
import EnvelopeVault.Proofs.Database
import EnvelopeVault.Proofs.Disclosure
import EnvelopeVault.Proofs.FreshNonces
import EnvelopeVault.Proofs.Isolation
import EnvelopeVault.Proofs.KeyEncodings
import EnvelopeVault.Proofs.Linearizability
import EnvelopeVault.Proofs.OperationNames
import EnvelopeVault.Proofs.Placeholders
import EnvelopeVault.Proofs.RootKey
import EnvelopeVault.Proofs.RowLayout
import EnvelopeVault.Proofs.Secrecy
import EnvelopeVault.Proofs.Unpacking
import EnvelopeVault.Proofs.Versions
import EnvelopeVault.Session
