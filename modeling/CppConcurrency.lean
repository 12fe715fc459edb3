import CppConcurrency.LatchBarrier.Latch
import CppConcurrency.LatchBarrier.Returns
import CppConcurrency.LevelMutex.Hierarchy
import CppConcurrency.ThreadSafeStack.Returns
import CppConcurrency.ThreadSafeStack.WorkEnds
import CppConcurrency.ThreadsafeQueue.Returns
import CppConcurrency.ThreadGuard.Thread
import CppConcurrency.JThread.Ownership
import CppConcurrency.QuickSort.Cost
import CppConcurrency.Busy.IsPrime
import CppConcurrency.LevelMutex.Finish
import CppConcurrency.LevelMutex.FailedCall
import CppConcurrency.ConditionVariable.MinimalWait
import CppConcurrency.ConditionVariable.BothEnd
import CppConcurrency.Future.RepeatedCall
import CppConcurrency.Future.Promise
import CppConcurrency.Future.SharedFuture
import CppConcurrency.Future.Wait
import CppConcurrency.Future.WaitFor
import CppConcurrency.Mutex.ProtVector
import CppConcurrency.Atomic.CompareExchange
import CppConcurrency.Atomic.CasLoop
import CppConcurrency.Atomic.MemoryModes
import CppConcurrency.Atomic.Transfer
import CppConcurrency.ObjectSwap.Returns
import CppConcurrency.DnsCache.Returns
import CppConcurrency.SleepFor.WaitForFlag
import CppConcurrency.UniqueLock.HandOver
import CppConcurrency.CallOnce.Resource
import CppConcurrency.CallOnce.Communication
