import KemMake.Ideal
import KemMake.Handshake
import KemMake.Binding
import KemMake.Escapes
import KemMake.Crank
import KemMake.Authentication
import KemMake.Reference
import KemMake.Promotion
import KemMake.Inherited
import KemMake.Faithful
import KemMake.Tampering
import KemMake.Canonical
import KemMake.Standalone
import KemMake.Flooded
import KemMake.Buckets
import KemMake.Twins
import KemMake.Retries
import KemMake.Salt
import KemMake.Identities
import KemMake.Interrupted
import KemMake.Released
import KemMake.Disclosure
import KemMake.Takers
import KemMake.Crashes
import KemMake.Keyring
import KemMake.Rounds
import KemMake.Lifetimes
import KemMake.Idling
import KemMake.Sending
import KemMake.Passphrases
