import Tarmac.Lib.Runs
import Tarmac.PackCas.Crash
import Tarmac.PackCas.Orphans
import Tarmac.PackCas.ReadPaths
import Tarmac.PackCas.Tiles
import Tarmac.PackCas.Uses
import Tarmac.PackCas.Wipe
import Tarmac.PackCas.Writers
import Tarmac.Tree.Queue
import Tarmac.Tree.Durable
import Tarmac.Tree.Fresh
import Tarmac.Tree.Touches
import Tarmac.Tree.Stale
import Tarmac.Tree.Canonical
import Tarmac.Tree.Expire
import Tarmac.Tree.ReadEntries
import Tarmac.Tree.HashPart
import Tarmac.Tree.Stamps
import Tarmac.Tree.NarHash
import Tarmac.Tree.LeftOpen
import Tarmac.Tree.MarkLive
import Tarmac.Tree.Held
import Tarmac.Tree.Turns
