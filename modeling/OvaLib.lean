import OvaLib.Attempts
import OvaLib.BloomFilter.BloomFilter
import OvaLib.Deque.Deque
import OvaLib.Deque.IndexArithmetic
import OvaLib.Foundation.AllPairs
import OvaLib.Foundation.BreadthFirst
import OvaLib.Foundation.Circuits
import OvaLib.Foundation.DepthFirst
import OvaLib.Foundation.PackedBits
import OvaLib.Foundation.SpanningForest
import OvaLib.Foundation.Steps
import OvaLib.Foundation.Ties
import OvaLib.Graph.AllocationFailures
import OvaLib.Graph.BreadthFirst
import OvaLib.Graph.Capacity
import OvaLib.Graph.ConnectedComponents
import OvaLib.Graph.DepthFirst
import OvaLib.Graph.FloydWarshall
import OvaLib.Graph.Kruskal
import OvaLib.Graph.MatrixArithmetic
import OvaLib.Graph.MinPath
import OvaLib.Graph.OfCalls
import OvaLib.Graph.Prim
import OvaLib.Graph.SpanningTrees
import OvaLib.Graph.StrongComponents
import OvaLib.Graph.Symmetry
import OvaLib.Graph.TopologicalSort
import OvaLib.Graph.UndirectedCycle
import OvaLib.Graph.UnionFind
import OvaLib.Graph.UnionFindRuns
import OvaLib.Heap.BinaryHeapRefinement
import OvaLib.Heap.FibonacciDegrees
import OvaLib.Heap.FibonacciLifetime
import OvaLib.Heap.FibonacciNull
import OvaLib.Heap.FibonacciRefinement
import OvaLib.Lists.ListClone
import OvaLib.Lists.ListRefinement
import OvaLib.Lists.SortedList
import OvaLib.Lists.SortedListContents
import OvaLib.Map.HashFunctions
import OvaLib.Map.HashMapClone
import OvaLib.Map.HashMapRefinement
import OvaLib.Map.HashTable
import OvaLib.Matrix.Determinant
import OvaLib.Matrix.Inverse
import OvaLib.Matrix.PowerOfTwo
import OvaLib.Matrix.SessionRefinement
import OvaLib.Matrix.Strassen
import OvaLib.MemoryPool.MemoryPool
import OvaLib.MemoryPool.SizeArithmetic
import OvaLib.Queue.HeapQueue
import OvaLib.Queue.HeapQueueClone
import OvaLib.Queue.InitialCapacity
import OvaLib.Queue.LinkedQueueLifetime
import OvaLib.Queue.LinkedQueueNodes
import OvaLib.Sets.SetAlgebra
import OvaLib.SkipList.SkipListRefinement
import OvaLib.Solver.BranchComplete
import OvaLib.Solver.BranchPartition
import OvaLib.Solver.BranchSession
import OvaLib.Solver.BranchingChoice
import OvaLib.Solver.GomoryCuts
import OvaLib.Solver.ProblemSession
import OvaLib.Solver.SimplexBound
import OvaLib.Solver.StoredRuns
import OvaLib.Sorter.MergeSort
import OvaLib.Sorter.Queries
import OvaLib.Sorter.QuickSort
import OvaLib.Sorter.Sorter
import OvaLib.Sorter.Swap
import OvaLib.Tree.AvlRefinement
import OvaLib.Tree.InsertFailure
import OvaLib.Tree.Queries
import OvaLib.Tree.RedBlackRefinement
import OvaLib.Tree.TreeLifetime
import OvaLib.Trie.InsertFailure
import OvaLib.Trie.Refinement
