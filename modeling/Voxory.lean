import Voxory.Containers.AllOrNothing
import Voxory.HeapArray.Interruption
import Voxory.HeapArray.Rollback
import Voxory.RingBuffer.Model
import Voxory.RingBuffer.Session
import Voxory.RingBuffer.Growth
import Voxory.RingBuffer.Safety
import Voxory.RingBuffer.Moves
import Voxory.RingBuffer.Capacity
import Voxory.RingBuffer.Commits
import Voxory.RingBuffer.Relocation
import Voxory.RingBuffer.Interruption
import Voxory.RingBuffer.Alias
import Voxory.RingBuffer.Replacement
import Voxory.RingBuffer.Resample
import Voxory.ChunkRing.Contents
import Voxory.ChunkRing.Delivery
import Voxory.ChunkRing.Sequence
import Voxory.ChunkRing.Bytes
import Voxory.ChunkRing.Memory
import Voxory.Capture.Stream
import Voxory.Capture.Window
import Voxory.Capture.Rate
import Voxory.Capture.Chunk
import Voxory.Capture.Custody
import Voxory.Capture.Transcript
import Voxory.LinkedList.Assignment
import Voxory.LinkedList.Accounts
import Voxory.DebugIterators.Moves
import Voxory.DebugIterators.Swap
import Voxory.DebugIterators.Alone
import Voxory.StaticArray.Assignment
import Voxory.StaticArray.Copies
