import MinixClipboard.Asm.Vault
import MinixClipboard.Client.Announced
import MinixClipboard.Client.Budget
import MinixClipboard.Client.EmptyRead
import MinixClipboard.Client.FailsClosed
import MinixClipboard.Client.Messages
import MinixClipboard.Client.PastedOnce
import MinixClipboard.Client.Updates
import MinixClipboard.Client.WaitFree
import MinixClipboard.Codec.Canonical
import MinixClipboard.Codec.CipherSafety
import MinixClipboard.Codec.DecodedSize
import MinixClipboard.Codec.Estimate
import MinixClipboard.Codec.RefusedKey
import MinixClipboard.Driver.Commute
import MinixClipboard.Driver.Leftovers
import MinixClipboard.Driver.Restarted
import MinixClipboard.Pm.AnyTable
import MinixClipboard.Simulated.PasteSafety
