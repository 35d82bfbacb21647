import XKC.Bits
import XKC.Tree
import XKC.Path
import XKC.Alphabet
import XKC.Writer
import XKC.Encode
import XKC.Decode
import XKC.BitStream
import XKC.RoundTrip
import XKC.Rank
import XKC.Heap
import XKC.Accepted
import XKC.Faults
import XKC.Winexts
import XKC.Optimal
import XKC.Wide
