import Bpy.CachedStore
import Bpy.CacheRejection
import Bpy.HashTreeShape
import Bpy.ReadYourWrites
import Bpy.StoreDurability
import Bpy.GcSweepExact
import Bpy.HostRestore
import Bpy.RootSignatures
import Bpy.RemoteClosing
import Bpy.RemoteBuffers
import Bpy.PackErrors
import Bpy.ReaderRefresh
import Bpy.CanonicalDirs
import Bpy.TreeRemove
import Bpy.TreeHashes
import Bpy.PastCopies
import Bpy.FileSeeks
import Bpy.PackingBounds
import Bpy.PackWrites
import Bpy.SentRequests
import Bpy.RefHistories
import Bpy.CryptFileFailures
import Bpy.MalformedPacks
import Bpy.FrameDecoding
import Bpy.CallIds
import Bpy.NineDecoding
import Bpy.NineReads
import Bpy.CounterSteps
import Bpy.IdleShutdown
import Bpy.Archives
import Bpy.RootUpdates
import Bpy.GcCollect
import Bpy.NineAnswers
